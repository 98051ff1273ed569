import LinkScheduling.Frames

/-! The server, after `main.cpp`, `queue.h` and the schedulers: one acceptor, an admission
thread for each connection, the workers, the queue they share and the main thread with its
shutdown. `step` is one atomic step of one of them; a slice, an admission's `open` with its
`fstat`, and the reading of a header are each one step. Of the history nothing is read. -/

namespace LinkScheduling
open Effect

def kHeaderTimeoutMs : Int := 5000
def kMaxPutBytes : UInt64 := 1073741824

/-- A new descriptor number that is no file's: a connection. -/
def Files.reserve (f : Files) : Files :=
  { f with
    nextFd := f.nextFd + 1
    descs_lt := by
      intro fd d h
      have bounds := f.descs_lt h
      exact ⟨bounds.1, bounds.2.1, by push_cast; omega⟩ }

inductive Ruling
  | refuse (reason : Bytes)
  | health
  | admitted (op : Op) (filename : Bytes) (bytes : UInt64) (leftover : Bytes)
  deriving DecidableEq

def ruling (hdr : HeaderReadResult) : Ruling :=
  if hdr.ok then
    let parsed := parseRequestLine hdr.line
    match parsed.type with
    | .malformed => .refuse parsed.error
    | .health => .health
    | .get =>
      if isFilenameSafe parsed.filename then .admitted .get parsed.filename 0 hdr.leftover
      else .refuse (ascii "unsafe filename")
    | .put =>
      if isFilenameSafe parsed.filename then
        if parsed.byteCount > kMaxPutBytes then .refuse (ascii "declared size too large")
        else .admitted .put parsed.filename parsed.byteCount hdr.leftover
      else .refuse (ascii "unsafe filename")
  else .refuse (if hdr.error = [] then ascii "header read timeout" else hdr.error)

def openGet (path : Path) : Sys (Option (Int × UInt64)) := do
  match ← openRead path with
  | none => pure none
  | some n =>
    match ← fstat n with
    | some size => pure (some (n, UInt64.ofNat size))
    | none =>
      close n
      pure none

def answer (fd : Int) (reply : Bytes) : Sys Unit := do
  let _ ← sendAll fd reply
  close fd

inductive Phase
  | reading
  | asked
  | answering (reply : Bytes)
  | numbering (op : Op) (filename : Bytes) (bytes : UInt64) (leftover : Bytes)
  | stamping (id : Nat)
  | opening (id : Nat)
  | enqueuing (id : Nat)
  | leaving
  | gone
  deriving DecidableEq

structure Thread where
  fd : Int
  phase : Phase

def Ruling.phase : Ruling → Phase
  | .refuse reason => .answering (formatErr reason)
  | .health => .asked
  | .admitted op filename bytes leftover => .numbering op filename bytes leftover

inductive Acceptor
  | accepting
  | accepted (fd : Int)
  | counted (fd : Int)
  | turningAway (fd : Int)
  | exited
  deriving DecidableEq

inductive Worker
  | asking
  | holding (id : Nat)
  | preempted (id : Nat)
  | served (id : Nat) (res : SliceResult)
  | recorded (id : Nat)
  | exited
  deriving DecidableEq

inductive Main
  | polling
  | joiningAcceptor
  | awaitingAdmissions
  | stopping
  | joiningWorkers
  | finished
  deriving DecidableEq

/-- What has happened to the connections and the requests. A request is created with the body
that its client has sent or will send once it is greeted. -/
inductive Mark
  | accepted (fd : Int)
  | turnedAway (fd : Int)
  | answered (fd : Int)
  | created (r : Request) (body : Bytes)
  | opened (id : Nat)
  | enqueued (id : Nat) (fd : Int)
  | slice (id : Nat) (value : Except Fault SliceResult)
  | installed (id : Nat)
  | finalised (id : Nat) (fd : Int)

structure Server where
  os : Os
  flag : Bool := false
  listening : Bool := true
  acceptor : Acceptor := .accepting
  active : Int := 0
  threads : List Thread := []
  nextId : Nat := 1
  heap : Nat → Option Request := fun _ => none
  queue : List Nat := []
  shuttingDown : Bool := false
  workers : List Worker
  main : Main := .polling
  accounts : Accounts := {}
  crashed : Bool := false
  history : List Mark := []
  log : List Event := []

structure Config where
  fileDir : Path
  sp : SliceParams

namespace Server

def start (os : Os) (threads : Nat) : Server := { os := os, workers := List.replicate threads .asking }

def setPhase (s : Server) (k : Nat) (fd : Int) (p : Phase) : Server :=
  { s with threads := s.threads.set k ⟨fd, p⟩ }

def setWorker (s : Server) (w : Nat) (p : Worker) : Server := { s with workers := s.workers.set w p }

def setRequest (s : Server) (id : Nat) (r : Option Request) : Server :=
  { s with heap := Function.update s.heap id r }

def mark (s : Server) (ms : List Mark) : Server := { s with history := s.history ++ ms }

def after (s : Server) {α : Type} (o : Outcome Fault Os Event α) : Server :=
  { s with os := o.state, log := s.log ++ o.log }

/-- An exception that nothing catches ends the process. -/
def crash (s : Server) : Server := { s with crashed := true }

end Server

def sjfPick (sizes : List UInt64) : Nat :=
  (List.range' 1 (sizes.length - 1)).foldl
    (fun best i => if sizes.getD i 0 < sizes.getD best 0 then i else best) 0

def pick (p : Policy) (sizes : List UInt64) : Nat := if p = .sjf then sjfPick sizes else 0

def Server.sizes (s : Server) : List UInt64 :=
  s.queue.map fun id => ((s.heap id).map Request.bytes).getD 0

/-- The body a client has sent, or will send once it is greeted, as far as it is declared. -/
def declared (r : Request) (os : Os) : Bytes :=
  (r.leftover ++ stream r.clientFd ⟨r, os⟩).take r.bytes.toNat

def newRequest (cfg : Config) (id : Nat) (fd : Int) (op : Op) (filename : Bytes) (bytes : UInt64)
    (leftover : Bytes) : Request :=
  { id := id, op := op, filename := filename, bytes := bytes, leftover := leftover, clientFd := fd
    path := cfg.fileDir ++ ascii "/" ++ filename }

def Server.readDone (s : Server) (k : Nat) (fd : Int) (o : Outcome Fault Os Event HeaderReadResult) :
    Server :=
  match o.value with
  | .ok hdr => (s.after o).setPhase k fd (ruling hdr).phase
  | .error _ => (s.after o).crash

def Server.openDone (s : Server) (k : Nat) (fd : Int) (id : Nat) (r : Request)
    (o : Outcome Fault Os Event (Option (Int × UInt64))) : Server :=
  match o.value with
  | .ok (some (n, size)) =>
    (((s.after o).setRequest id (some { r with fileFd := n, bytes := size })).setPhase k fd
      (.enqueuing id)).mark [.opened id]
  | .ok none => ((s.after o).setRequest id none).setPhase k fd
      (.answering (formatErr (ascii "file not found")))
  | .error _ => (s.after o).crash

def threadStep (cfg : Config) (k : Nat) (s : Server) : Option Server :=
  match s.threads[k]? with
  | none => none
  | some ⟨fd, phase⟩ =>
    match phase with
    | .reading => some (s.readDone k fd (readHeaderLine fd kHeaderTimeoutMs s.os))
    | .asked => some (s.setPhase k fd (.answering (formatOk s.queue.length)))
    | .answering reply => some (((s.after (answer fd reply s.os)).setPhase k fd .leaving).mark [.answered fd])
    | .numbering op filename bytes leftover =>
      let r := newRequest cfg s.nextId fd op filename bytes leftover
      some ((({ s with nextId := s.nextId + 1 }.setRequest r.id (some r)).setPhase k fd
        (.stamping r.id)).mark [.created r (declared r s.os)])
    | .stamping id => (s.heap id).map fun r =>
      (s.setRequest id (some { r with arrivalNs := s.os.now })).setPhase k fd
        (if r.op = .get then .opening id else .enqueuing id)
    | .opening id => (s.heap id).map fun r => s.openDone k fd id r (openGet r.path s.os)
    | .enqueuing id =>
      some (({ s with queue := s.queue ++ [id] }.setPhase k fd .leaving).mark [.enqueued id fd])
    | .leaving => some ({ s with active := s.active - 1 }.setPhase k fd .gone)
    | .gone => none

def sliceMarks (id : Nat) (o : Round) : List Mark :=
  .slice id o.value :: if renamesOf o.log = [] then [] else [.installed id]

def Server.afterSlice (s : Server) (id : Nat) (o : Round) : Server :=
  { s with
    os := o.state.os
    log := s.log ++ o.log
    heap := Function.update s.heap id (some o.state.req)
    history := s.history ++ sliceMarks id o }

def Server.released (s : Server) (id : Nat) (o : Outcome Fault Job Event Unit) : Server :=
  { s with os := o.state.os, log := s.log ++ o.log, heap := Function.update s.heap id none }

def Server.sliceDone (s : Server) (w id : Nat) (o : Round) : Server :=
  match o.value with
  | .ok .preempted => (s.afterSlice id o).setWorker w (.preempted id)
  | .ok res => (s.afterSlice id o).setWorker w (.served id res)
  | .error _ => (s.afterSlice id o).crash

def workerStep (cfg : Config) (w : Nat) (s : Server) : Option Server :=
  match s.workers[w]? with
  | none => none
  | some .asking =>
    if s.queue = [] then if s.shuttingDown then some (s.setWorker w .exited) else none
    else
      let i := pick cfg.sp.policy s.sizes
      (s.queue[i]?).bind fun id => (s.heap id).map fun r =>
        ({ s with queue := s.queue.eraseIdx i }.setRequest id
          (some { r with startNs := if r.startNs = 0 then s.os.now else r.startNs })).setWorker w (.holding id)
  | some (.holding id) => (s.heap id).map fun r =>
    s.sliceDone w id (serveOrReport r.clientFd cfg.sp ⟨r, s.os⟩)
  | some (.preempted id) => some ({ s with queue := s.queue ++ [id] }.setWorker w .asking)
  | some (.served id res) => (s.heap id).map fun r =>
    let r : Request := { r with finishNs := s.os.now }
    ({ s with accounts := s.accounts.record res r }.setRequest id (some r)).setWorker w (.recorded id)
  | some (.recorded id) => (s.heap id).map fun r =>
    (s.released id (finalise ⟨r, s.os⟩)).setWorker w .asking |>.mark [.finalised id r.clientFd]
  | some .exited => none

def mainStep (s : Server) : Option Server :=
  match s.main with
  | .polling => if s.flag then some { s with listening := false, main := .joiningAcceptor } else none
  | .joiningAcceptor => if s.acceptor = .exited then some { s with main := .awaitingAdmissions } else none
  | .awaitingAdmissions => if 0 < s.active then none else some { s with main := .stopping }
  | .stopping => some { s with shuttingDown := true, main := .joiningWorkers }
  | .joiningWorkers => if ∀ p ∈ s.workers, p = .exited then some { s with main := .finished } else none
  | .finished => none

/-- Which step comes next: time passes, a signal arrives, the acceptor, an admission thread, a
worker or the main thread moves on. A failure of `accept` or of the start of a thread is the
environment's choice. -/
inductive Act
  | tick (ns : Nat)
  | signal
  | accept
  | acceptFails
  | count
  | spawn
  | spawnFails
  | turnAway
  | admission (k : Nat)
  | work (w : Nat)
  | main
  deriving DecidableEq

def acceptorStep (a : Act) (s : Server) : Option Server :=
  match a, s.acceptor with
  | .accept, .accepting =>
    if s.listening then
      let fd : Int := s.os.files.nextFd
      some ({ s with
        acceptor := .accepted fd
        os := { s.os with files := s.os.files.reserve } }.mark [.accepted fd])
    else none
  | .acceptFails, .accepting => some (if s.flag then { s with acceptor := .exited } else s)
  | .count, .accepted fd => some { s with acceptor := .counted fd, active := s.active + 1 }
  | .spawn, .counted fd => some { s with acceptor := .accepting, threads := s.threads ++ [⟨fd, .reading⟩] }
  | .spawnFails, .counted fd => some { s with acceptor := .turningAway fd, active := s.active - 1 }
  | .turnAway, .turningAway fd =>
    some (({ s with acceptor := .accepting }.after (answer fd (formatErr (ascii "server busy")) s.os)).mark
      [.turnedAway fd])
  | _, _ => none

def step (cfg : Config) (a : Act) (s : Server) : Option Server :=
  if s.crashed then none
  else
    match a with
    | .tick ns => some { s with os := { s.os with now := s.os.now + ns } }
    | .signal => some { s with flag := true }
    | .admission k => threadStep cfg k s
    | .work w => workerStep cfg w s
    | .main => mainStep s
    | a => acceptorStep a s

def run (cfg : Config) : List Act → Server → Option Server
  | [], s => some s
  | a :: as, s => (step cfg a s).bind (run cfg as)

/-- The steps that the server can take, one case for each way a step can go. -/
inductive Step (cfg : Config) (s : Server) : Server → Prop
  | tick (ns : Nat) : Step cfg s { s with os := { s.os with now := s.os.now + ns } }
  | signal : Step cfg s { s with flag := true }
  | accept : s.acceptor = .accepting → s.listening = true → Step cfg s ({ s with
      acceptor := .accepted s.os.files.nextFd
      os := { s.os with files := s.os.files.reserve } }.mark [.accepted s.os.files.nextFd])
  | acceptAgain : Step cfg s s
  | acceptorExits : s.acceptor = .accepting → s.flag = true → Step cfg s { s with acceptor := .exited }
  | count {fd : Int} : s.acceptor = .accepted fd →
      Step cfg s { s with acceptor := .counted fd, active := s.active + 1 }
  | spawn {fd : Int} : s.acceptor = .counted fd →
      Step cfg s { s with acceptor := .accepting, threads := s.threads ++ [⟨fd, .reading⟩] }
  | spawnFails {fd : Int} : s.acceptor = .counted fd →
      Step cfg s { s with acceptor := .turningAway fd, active := s.active - 1 }
  | turnAway {fd : Int} {o : Outcome Fault Os Event Unit} : s.acceptor = .turningAway fd →
      o = answer fd (formatErr (ascii "server busy")) s.os →
      Step cfg s (({ s with acceptor := .accepting }.after o).mark [.turnedAway fd])
  | read {k : Nat} {fd : Int} {hdr : HeaderReadResult} {o : Outcome Fault Os Event HeaderReadResult} :
      s.threads[k]? = some ⟨fd, .reading⟩ → o = readHeaderLine fd kHeaderTimeoutMs s.os →
      o.value = .ok hdr → Step cfg s ((s.after o).setPhase k fd (ruling hdr).phase)
  | depth {k : Nat} {fd : Int} : s.threads[k]? = some ⟨fd, .asked⟩ →
      Step cfg s (s.setPhase k fd (.answering (formatOk s.queue.length)))
  | answered {k : Nat} {fd : Int} {reply : Bytes} {o : Outcome Fault Os Event Unit} :
      s.threads[k]? = some ⟨fd, .answering reply⟩ → o = answer fd reply s.os →
      Step cfg s (((s.after o).setPhase k fd .leaving).mark [.answered fd])
  | number {k : Nat} {fd : Int} {op : Op} {filename : Bytes} {bytes : UInt64} {leftover : Bytes}
      {r : Request} : s.threads[k]? = some ⟨fd, .numbering op filename bytes leftover⟩ →
      r = newRequest cfg s.nextId fd op filename bytes leftover →
      Step cfg s ((({ s with nextId := s.nextId + 1 }.setRequest s.nextId (some r)).setPhase k fd
        (.stamping s.nextId)).mark [.created r (declared r s.os)])
  | stamp {k : Nat} {fd : Int} {id : Nat} {r : Request} : s.threads[k]? = some ⟨fd, .stamping id⟩ →
      s.heap id = some r →
      Step cfg s ((s.setRequest id (some { r with arrivalNs := s.os.now })).setPhase k fd
        (if r.op = .get then .opening id else .enqueuing id))
  | opened {k : Nat} {fd : Int} {id : Nat} {r : Request} {n : Int} {size : UInt64}
      {o : Outcome Fault Os Event (Option (Int × UInt64))} :
      s.threads[k]? = some ⟨fd, .opening id⟩ → s.heap id = some r → o = openGet r.path s.os →
      o.value = .ok (some (n, size)) →
      Step cfg s ((((s.after o).setRequest id (some { r with fileFd := n, bytes := size })).setPhase k fd
        (.enqueuing id)).mark [.opened id])
  | notFound {k : Nat} {fd : Int} {id : Nat} {r : Request}
      {o : Outcome Fault Os Event (Option (Int × UInt64))} :
      s.threads[k]? = some ⟨fd, .opening id⟩ → s.heap id = some r → o = openGet r.path s.os →
      o.value = .ok none →
      Step cfg s (((s.after o).setRequest id none).setPhase k fd
        (.answering (formatErr (ascii "file not found"))))
  | enqueue {k : Nat} {fd : Int} {id : Nat} : s.threads[k]? = some ⟨fd, .enqueuing id⟩ →
      Step cfg s (({ s with queue := s.queue ++ [id] }.setPhase k fd .leaving).mark [.enqueued id fd])
  | leave {k : Nat} {fd : Int} : s.threads[k]? = some ⟨fd, .leaving⟩ →
      Step cfg s ({ s with active := s.active - 1 }.setPhase k fd .gone)
  | workerExits {w : Nat} : s.workers[w]? = some .asking → s.queue = [] → s.shuttingDown = true →
      Step cfg s (s.setWorker w .exited)
  | next {w i id : Nat} {r : Request} : s.workers[w]? = some .asking → i = pick cfg.sp.policy s.sizes →
      s.queue[i]? = some id → s.heap id = some r →
      Step cfg s (({ s with queue := s.queue.eraseIdx i }.setRequest id
        (some { r with startNs := if r.startNs = 0 then s.os.now else r.startNs })).setWorker w (.holding id))
  | preempt {w id : Nat} {r : Request} {o : Round} : s.workers[w]? = some (.holding id) →
      s.heap id = some r → o = serveOrReport r.clientFd cfg.sp ⟨r, s.os⟩ → o.value = .ok .preempted →
      Step cfg s ((s.afterSlice id o).setWorker w (.preempted id))
  | serve {w id : Nat} {r : Request} {res : SliceResult} {o : Round} :
      s.workers[w]? = some (.holding id) → s.heap id = some r →
      o = serveOrReport r.clientFd cfg.sp ⟨r, s.os⟩ → o.value = .ok res → res ≠ .preempted →
      Step cfg s ((s.afterSlice id o).setWorker w (.served id res))
  | requeue {w id : Nat} : s.workers[w]? = some (.preempted id) →
      Step cfg s ({ s with queue := s.queue ++ [id] }.setWorker w .asking)
  | record {w id : Nat} {res : SliceResult} {r r' : Request} : s.workers[w]? = some (.served id res) →
      s.heap id = some r → r' = { r with finishNs := s.os.now } →
      Step cfg s (({ s with accounts := s.accounts.record res r' }.setRequest id (some r')).setWorker w
        (.recorded id))
  | release {w id : Nat} {r : Request} {o : Outcome Fault Job Event Unit} :
      s.workers[w]? = some (.recorded id) → s.heap id = some r → o = finalise ⟨r, s.os⟩ →
      Step cfg s (((s.released id o).setWorker w .asking).mark [.finalised id r.clientFd])
  | stopListening : s.main = .polling → s.flag = true →
      Step cfg s { s with listening := false, main := .joiningAcceptor }
  | acceptorJoined : s.main = .joiningAcceptor → s.acceptor = .exited →
      Step cfg s { s with main := .awaitingAdmissions }
  | admissionsDone : s.main = .awaitingAdmissions → ¬ 0 < s.active → Step cfg s { s with main := .stopping }
  | shutDown : s.main = .stopping → Step cfg s { s with shuttingDown := true, main := .joiningWorkers }
  | workersJoined : s.main = .joiningWorkers → (∀ p ∈ s.workers, p = .exited) →
      Step cfg s { s with main := .finished }
  | threadCrash {k : Nat} {fd : Int} {e : Fault} {o : Outcome Fault Os Event HeaderReadResult} :
      s.threads[k]? = some ⟨fd, .reading⟩ → o = readHeaderLine fd kHeaderTimeoutMs s.os →
      o.value = .error e → Step cfg s (s.after o).crash
  | openCrash {k : Nat} {fd : Int} {id : Nat} {r : Request} {e : Fault}
      {o : Outcome Fault Os Event (Option (Int × UInt64))} :
      s.threads[k]? = some ⟨fd, .opening id⟩ → s.heap id = some r → o = openGet r.path s.os →
      o.value = .error e → Step cfg s (s.after o).crash
  | sliceCrash {w id : Nat} {r : Request} {e : Fault} {o : Round} : s.workers[w]? = some (.holding id) →
      s.heap id = some r → o = serveOrReport r.clientFd cfg.sp ⟨r, s.os⟩ → o.value = .error e →
      Step cfg s (s.afterSlice id o).crash

theorem readDone_cases (s : Server) (k : Nat) (fd : Int) (o : Outcome Fault Os Event HeaderReadResult) :
    (∃ hdr, o.value = .ok hdr ∧ s.readDone k fd o = (s.after o).setPhase k fd (ruling hdr).phase) ∨
      ∃ e, o.value = .error e ∧ s.readDone k fd o = (s.after o).crash := by
  unfold Server.readDone
  cases o.value with
  | ok hdr => exact .inl ⟨hdr, rfl, rfl⟩
  | error e => exact .inr ⟨e, rfl, rfl⟩

theorem openDone_cases (s : Server) (k : Nat) (fd : Int) (id : Nat) (r : Request)
    (o : Outcome Fault Os Event (Option (Int × UInt64))) :
    (∃ n size, o.value = .ok (some (n, size)) ∧ s.openDone k fd id r o =
      (((s.after o).setRequest id (some { r with fileFd := n, bytes := size })).setPhase k fd
        (.enqueuing id)).mark [.opened id]) ∨
    (o.value = .ok none ∧ s.openDone k fd id r o = ((s.after o).setRequest id none).setPhase k fd
      (.answering (formatErr (ascii "file not found")))) ∨
    ∃ e, o.value = .error e ∧ s.openDone k fd id r o = (s.after o).crash := by
  unfold Server.openDone
  rcases o.value with e | _ | ⟨n, size⟩
  · exact .inr (.inr ⟨e, rfl, rfl⟩)
  · exact .inr (.inl ⟨rfl, rfl⟩)
  · exact .inl ⟨n, size, rfl, rfl⟩

theorem sliceDone_cases (s : Server) (w id : Nat) (o : Round) :
    (o.value = .ok .preempted ∧ s.sliceDone w id o = (s.afterSlice id o).setWorker w (.preempted id)) ∨
    (∃ res, o.value = .ok res ∧ res ≠ .preempted ∧
      s.sliceDone w id o = (s.afterSlice id o).setWorker w (.served id res)) ∨
    ∃ e, o.value = .error e ∧ s.sliceDone w id o = (s.afterSlice id o).crash := by
  unfold Server.sliceDone
  rcases o.value with e | res
  · exact .inr (.inr ⟨e, rfl, rfl⟩)
  · cases res with
    | preempted => exact .inl ⟨rfl, rfl⟩
    | done => exact .inr (.inl ⟨_, rfl, by simp, rfl⟩)
    | failed => exact .inr (.inl ⟨_, rfl, by simp, rfl⟩)

theorem threadStep_cases {cfg : Config} {k : Nat} {s s' : Server} (h : threadStep cfg k s = some s') :
    Step cfg s s' := by
  unfold threadStep at h
  cases hk : s.threads[k]? with
  | none => simp [hk] at h
  | some thread =>
    obtain ⟨fd, phase⟩ := thread
    simp only [hk] at h
    cases phase with
    | reading =>
      rw [← Option.some.inj h]
      rcases readDone_cases s k fd (readHeaderLine fd kHeaderTimeoutMs s.os) with
        ⟨hdr, hv, done⟩ | ⟨e, hv, done⟩
      · rw [done]
        exact .read hk rfl hv
      · rw [done]
        exact .threadCrash hk rfl hv
    | asked =>
      cases h
      exact .depth hk
    | answering reply =>
      cases h
      exact .answered hk rfl
    | numbering op filename bytes leftover =>
      cases h
      exact .number hk rfl
    | stamping id =>
      obtain ⟨r, hr, rfl⟩ := Option.map_eq_some_iff.mp h
      exact .stamp hk hr
    | opening id =>
      obtain ⟨r, hr, rfl⟩ := Option.map_eq_some_iff.mp h
      rcases openDone_cases s k fd id r (openGet r.path s.os) with
        ⟨n, size, hv, done⟩ | ⟨hv, done⟩ | ⟨e, hv, done⟩
      · rw [done]
        exact .opened hk hr rfl hv
      · rw [done]
        exact .notFound hk hr rfl hv
      · rw [done]
        exact .openCrash hk hr rfl hv
    | enqueuing id =>
      cases h
      exact .enqueue hk
    | leaving =>
      cases h
      exact .leave hk
    | gone => cases h

theorem workerStep_cases {cfg : Config} {w : Nat} {s s' : Server} (h : workerStep cfg w s = some s') :
    Step cfg s s' := by
  unfold workerStep at h
  cases hw : s.workers[w]? with
  | none => simp [hw] at h
  | some worker =>
    simp only [hw] at h
    cases worker with
    | asking =>
      by_cases hq : s.queue = []
      · simp only [if_pos hq] at h
        split at h
        · cases h
          exact .workerExits hw hq ‹_›
        · cases h
      · simp only [if_neg hq] at h
        obtain ⟨id, hid, h⟩ := Option.bind_eq_some_iff.mp h
        obtain ⟨r, hr, rfl⟩ := Option.map_eq_some_iff.mp h
        exact .next hw rfl hid hr
    | holding id =>
      obtain ⟨r, hr, rfl⟩ := Option.map_eq_some_iff.mp h
      rcases sliceDone_cases s w id (serveOrReport r.clientFd cfg.sp ⟨r, s.os⟩) with
        ⟨hv, done⟩ | ⟨res, hv, final, done⟩ | ⟨e, hv, done⟩
      · rw [done]
        exact .preempt hw hr rfl hv
      · rw [done]
        exact .serve hw hr rfl hv final
      · rw [done]
        exact .sliceCrash hw hr rfl hv
    | preempted id =>
      cases h
      exact .requeue hw
    | served id res =>
      obtain ⟨r, hr, rfl⟩ := Option.map_eq_some_iff.mp h
      exact .record hw hr rfl
    | recorded id =>
      obtain ⟨r, hr, rfl⟩ := Option.map_eq_some_iff.mp h
      exact .release hw hr rfl
    | exited => cases h

theorem mainStep_cases {cfg : Config} {s s' : Server} (h : mainStep s = some s') : Step cfg s s' := by
  unfold mainStep at h
  cases hm : s.main with
  | polling =>
    simp only [hm] at h
    split at h
    · cases h
      exact .stopListening hm ‹_›
    · cases h
  | joiningAcceptor =>
    simp only [hm] at h
    split at h
    · cases h
      exact .acceptorJoined hm ‹_›
    · cases h
  | awaitingAdmissions =>
    simp only [hm] at h
    split at h
    · cases h
    · cases h
      exact .admissionsDone hm ‹_›
  | stopping =>
    simp only [hm] at h
    cases h
    exact .shutDown hm
  | joiningWorkers =>
    simp only [hm] at h
    split at h
    · cases h
      exact .workersJoined hm ‹_›
    · cases h
  | finished => simp [hm] at h

theorem acceptorStep_cases {cfg : Config} {a : Act} {s s' : Server} (h : acceptorStep a s = some s') :
    Step cfg s s' := by
  unfold acceptorStep at h
  split at h
  · rename_i ha
    split at h
    · cases h
      exact .accept ha ‹_›
    · cases h
  · rename_i ha
    cases h
    split
    · exact .acceptorExits ha ‹_›
    · exact .acceptAgain
  · rename_i fd ha
    cases h
    exact .count ha
  · rename_i fd ha
    cases h
    exact .spawn ha
  · rename_i fd ha
    cases h
    exact .spawnFails ha
  · rename_i fd ha
    cases h
    exact .turnAway ha rfl
  · cases h

theorem step_cases {cfg : Config} {a : Act} {s s' : Server} (h : step cfg a s = some s') :
    s.crashed = false ∧ Step cfg s s' := by
  unfold step at h
  by_cases hc : s.crashed = true
  · rw [if_pos hc] at h
    cases h
  · rw [if_neg hc] at h
    refine ⟨by simpa using hc, ?_⟩
    cases a with
    | tick ns =>
      cases h
      exact .tick ns
    | signal =>
      cases h
      exact .signal
    | admission k => exact threadStep_cases h
    | work w => exact workerStep_cases h
    | main => exact mainStep_cases h
    | _ => exact acceptorStep_cases h

theorem run_append (cfg : Config) (as bs : List Act) (s : Server) :
    run cfg (as ++ bs) s = (run cfg as s).bind (run cfg bs) := by
  induction as generalizing s with
  | nil => rfl
  | cons a as ih => cases h : step cfg a s <;> simp [run, h, ih]

theorem run_keeps {cfg : Config} {P : Server → Prop}
    (keeps : ∀ s s', P s → s.crashed = false → Step cfg s s' → P s') {as : List Act} {s s' : Server}
    (start : P s) (h : run cfg as s = some s') : P s' := by
  induction as generalizing s with
  | nil =>
    cases h
    exact start
  | cons a as ih =>
    obtain ⟨t, ht, rest⟩ := Option.bind_eq_some_iff.mp h
    obtain ⟨alive, step⟩ := step_cases ht
    exact ih (keeps s t start alive step) rest

end LinkScheduling
