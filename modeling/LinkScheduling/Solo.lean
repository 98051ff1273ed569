import LinkScheduling.Counting
import LinkScheduling.HeaderLine
import LinkScheduling.Stamps

/-! A server with one worker and one connection, whose client asks for a file. In a world without
delays and failures the request gets into the queue, and the worker serves it round after round
until its row is written. -/

namespace LinkScheduling
open Effect Lines

theorem Os.unscripted {os : Os} (script : os.script = []) : os.verdict = .grant none ∧ os.answered = os := by
  constructor
  · rw [Os.verdict, script]
    rfl
  · cases os
    cases script
    rfl

theorem readHeaderLine_once (fd : Int) {timeoutMs : Int} (ht : timeoutMs ≠ 0) {os : Os} (script : os.script = [])
    (arrived : newline ∈ os.arrived fd) (short : (os.arrived fd).length ≤ 512) :
    wp (readHeaderLine fd timeoutMs) os fun v os' _ => ∃ hdr, v = .ok hdr ∧ hdr.ok = true ∧
      hdr.line = lineOf (os.arrived fd) ∧ os'.script = [] ∧ os'.now = os.now ∧ os'.files = os.files := by
  obtain ⟨verdict, -⟩ := Os.unscripted script
  have elapsed : os.elapsed = 0 := by rw [Os.elapsed, script]; rfl
  have chunk : chunkOf fd none os = os.arrived fd := by
    rw [chunkOf, List.take_of_length_le short]
    exact List.take_of_length_le (Nat.le_refl _)
  have some_ : os.arrived fd ≠ [] := List.ne_nil_of_mem arrived
  rw [readHeaderLine, wp_get_bind]
  refine wp_loop (fun line b _ => line = [] ∧ b = os) (fun _ _ => 0) ?_ _ _ os ⟨rfl, rfl⟩ (by simp)
  rintro line b l ⟨rfl, rfl⟩
  have time : InTime timeoutMs (b.now + timeoutMs.toNat * 1000000) b.now := by
    intro nonneg
    omega
  have sofar : HeaderSoFar fd b [] b := ⟨rfl, Talks.refl fd b, List.nil_prefix, by simp, by simp⟩
  refine wp_mono (wp_and (headerTurn_spec sofar timeoutMs _) (headerTurn_granted fd [] verdict time)) ?_
  rintro v c l' ⟨⟨r, rfl, hr⟩, -, script', now, value⟩
  rw [chunk, if_neg some_, HeaderReadResult.feed, if_pos arrived] at value
  cases value
  obtain ⟨-, line, -⟩ := hr.read rfl
  exact ⟨_, rfl, rfl, line, by rw [script', script]; rfl, by rw [now, elapsed, Nat.add_zero], hr.files⟩

theorem openRead_named {p : Path} {i : Nat} {os : Os} (script : os.script = []) (named : os.files.names p = some i) :
    wp (openRead p) os fun v os' _ => v = .ok (some (os.files.nextFd : Int)) ∧
      os' = { os with files := os.files.openRead i (os.files.names_lt named) } := by
  obtain ⟨verdict, answered⟩ := Os.unscripted script
  unfold wp openRead call
  rw [verdict, answered]
  simp only
  split
  · rename_i none
    cases none.symm.trans named
  · rename_i j hj
    cases hj.symm.trans named
    exact ⟨rfl, rfl⟩

theorem fstat_open {n : Int} {c : Bytes} {os : Os} (script : os.script = []) (content : os.files.contentOf n = some c) :
    wp (fstat n) os fun v os' _ => v = .ok (some c.length) ∧ os' = os := by
  obtain ⟨verdict, answered⟩ := Os.unscripted script
  unfold wp fstat call
  rw [verdict, answered]
  simp [content]

theorem openGet_named {p : Path} {i : Nat} {os : Os} (script : os.script = []) (named : os.files.names p = some i) :
    wp (openGet p) os fun v os' _ => v = .ok (some ((os.files.nextFd : Int), UInt64.ofNat (os.files.data i).length)) ∧
      os' = { os with files := os.files.openRead i (os.files.names_lt named) } := by
  unfold openGet
  refine wp_seq (openRead_named script named) ?_ (by simp)
  rintro n os₁ l ⟨hn, hos⟩
  cases hn
  have script₁ : os₁.script = [] := by rw [hos, ← script]
  have content : os₁.files.contentOf os.files.nextFd = some (os.files.data i) := by
    rw [hos]
    simp [Files.contentOf]
  refine wp_seq (fstat_open script₁ content) ?_ (by simp)
  rintro size os₂ l₂ ⟨hsize, rfl⟩
  cases hsize
  rw [wp_pure]
  exact ⟨rfl, hos⟩

/-- The world in which a client asks for the file `f`, which holds `data`. -/
def downloader (data : Bytes) : Os :=
  { Os.start (Files.single (ascii "d/f") data) [] with now := 1, peer := fun _ _ => ascii "GET f" ++ [newline] }

structure Alone (c : Clocked) (id : Nat) (r : Request) : Prop where
  up : c.server.crashed = false
  workers : c.server.workers = [.asking]
  queue : c.server.queue = [id]
  late : c.late = []
  heap : c.server.heap id = some r

structure Lone (data : Bytes) (s : Server) (phase : Phase) : Prop where
  up : s.crashed = false
  threads : s.threads = [⟨0, phase⟩]
  workers : s.workers = [.asking]
  queue : s.queue = []
  script : s.os.script = []
  now : s.os.now = 1
  named : s.os.files.names (ascii "d/f") = some 0
  data : s.os.files.data 0 = data

section Lone
variable {cfg : Config} {data : Bytes} {s : Server}

theorem Lone.read (h : Lone data s .reading) {o : Outcome Fault Os Event HeaderReadResult} {hdr : HeaderReadResult}
    (value : o.value = .ok hdr) (ok : hdr.ok = true) (line : hdr.line = ascii "GET f") (script : o.state.script = [])
    (now : o.state.now = s.os.now) (files : o.state.files = s.os.files) :
    Lone data (s.readDone 0 0 o) (.numbering .get (ascii "f") 0 hdr.leftover) ∧ (s.readDone 0 0 o).nextId = s.nextId := by
  have verdict : (ruling hdr).phase = .numbering .get (ascii "f") 0 hdr.leftover := by
    unfold ruling
    rw [if_pos ok, line]
    rfl
  rw [Server.readDone, value]
  refine ⟨⟨h.up, ?_, h.workers, h.queue, script, now.trans h.now, ?_, ?_⟩, rfl⟩
  · simp only [Server.setPhase, Server.after, h.threads, verdict]
    rfl
  · exact files ▸ h.named
  · exact files ▸ h.data

theorem Lone.reads (h : Lone data s .reading) (arrived : s.os.arrived 0 = ascii "GET f" ++ [newline]) :
    ∃ s' left, step cfg (.admission 0) s = some s' ∧ Lone data s' (.numbering .get (ascii "f") 0 left) ∧
      s'.nextId = s.nextId := by
  have mem : newline ∈ s.os.arrived 0 := by simp [arrived]
  have short : (s.os.arrived 0).length ≤ 512 := by rw [arrived]; decide
  have text : lineOf (s.os.arrived 0) = ascii "GET f" := by rw [arrived]; decide
  have once := readHeaderLine_once 0 (show kHeaderTimeoutMs ≠ 0 by decide) h.script mem short
  have reads : step cfg (.admission 0) s = some (s.readDone 0 0 (readHeaderLine 0 kHeaderTimeoutMs s.os)) := by
    rw [step, if_neg (by simp [h.up])]
    simp only [threadStep, h.threads]
    rfl
  obtain ⟨hdr, value, ok, line, script, now, files⟩ := once
  obtain ⟨lone, next⟩ := h.read value ok (line.trans text) script now files
  exact ⟨_, hdr.leftover, reads, lone, next⟩

theorem Lone.numbers {op : Op} {name left : Bytes} {n : UInt64} (h : Lone data s (.numbering op name n left))
    (first : s.nextId = 1) : ∃ s', step cfg (.admission 0) s = some s' ∧ Lone data s' (.stamping 1) ∧
      s'.heap 1 = some (newRequest cfg 1 0 op name n left) := by
  have numbered : step cfg (.admission 0) s = some ((({ s with nextId := 2 }.setRequest 1
      (some (newRequest cfg 1 0 op name n left))).setPhase 0 0 (.stamping 1)).mark
        [.created (newRequest cfg 1 0 op name n left) (declared (newRequest cfg 1 0 op name n left) s.os)]) := by
    rw [step, if_neg (by simp [h.up])]
    simp only [threadStep, h.threads, first]
    rfl
  refine ⟨_, numbered, ⟨h.up, ?_, h.workers, h.queue, h.script, h.now, h.named, h.data⟩, ?_⟩
  · simp only [Server.setPhase, Server.mark, Server.setRequest, h.threads]
    rfl
  · simp only [Server.setPhase, Server.mark, Server.setRequest, Function.update_self]

theorem Lone.stamps (h : Lone data s (.stamping 1)) {r : Request} (heap : s.heap 1 = some r) (get : r.op = .get) :
    ∃ s', step cfg (.admission 0) s = some s' ∧ Lone data s' (.opening 1) ∧
      s'.heap 1 = some { r with arrivalNs := 1 } := by
  have stamped : step cfg (.admission 0) s =
      some ((s.setRequest 1 (some { r with arrivalNs := 1 })).setPhase 0 0 (.opening 1)) := by
    rw [step, if_neg (by simp [h.up])]
    simp only [threadStep, h.threads, List.getElem?_cons_zero, heap, Option.map_some, h.now, get, if_true]
  refine ⟨_, stamped, ⟨h.up, ?_, h.workers, h.queue, h.script, h.now, h.named, h.data⟩, ?_⟩
  · simp only [Server.setPhase, Server.setRequest, h.threads]
    rfl
  · simp only [Server.setPhase, Server.setRequest, Function.update_self]

theorem Lone.opens (h : Lone data s (.opening 1)) {r : Request} (heap : s.heap 1 = some r) (path : r.path = ascii "d/f") :
    ∃ s' n, step cfg (.admission 0) s = some s' ∧ Lone data s' (.enqueuing 1) ∧
      s'.heap 1 = some { r with fileFd := n, bytes := UInt64.ofNat data.length } ∧
      s'.os.files.contentOf n = some data := by
  have named : s.os.files.names r.path = some 0 := by rw [path, h.named]
  have opens := openGet_named h.script named
  rw [h.data] at opens
  have opened : step cfg (.admission 0) s = some (s.openDone 0 0 1 r (openGet r.path s.os)) := by
    rw [step, if_neg (by simp [h.up])]
    simp only [threadStep, h.threads, List.getElem?_cons_zero, heap, Option.map_some]
  revert opens opened
  unfold wp
  generalize openGet r.path s.os = o
  rintro ⟨value, state⟩ opened
  refine ⟨_, s.os.files.nextFd, opened, ?_, ?_, ?_⟩ <;> rw [Server.openDone, value]
  · refine ⟨h.up, ?_, h.workers, h.queue, ?_, ?_, ?_, ?_⟩ <;>
      simp [Server.mark, Server.setPhase, Server.setRequest, Server.after, h.threads, state, h.script, h.now, h.named, h.data]
  · simp [Server.mark, Server.setPhase, Server.setRequest]
  · simp [Server.mark, Server.setPhase, Server.setRequest, Server.after, state, Files.contentOf, h.data]

theorem Lone.enqueues (h : Lone data s (.enqueuing 1)) {r : Request} (heap : s.heap 1 = some r) :
    ∃ s', step cfg (.admission 0) s = some s' ∧ Alone ⟨s', []⟩ 1 r ∧ s'.os = s.os := by
  have enqueued : step cfg (.admission 0) s =
      some (({ s with queue := s.queue ++ [1] }.setPhase 0 0 .leaving).mark [.enqueued 1 0]) := by
    rw [step, if_neg (by simp [h.up])]
    simp only [threadStep, h.threads, List.getElem?_cons_zero]
  refine ⟨_, enqueued, ⟨h.up, h.workers, ?_, rfl, heap⟩, rfl⟩
  simp only [Server.mark, Server.setPhase, h.queue]
  rfl

theorem downloader_admitted (dir : cfg.fileDir = ascii "d") (data : Bytes) : ∃ s r left n,
    run cfg [.accept, .count, .spawn, .admission 0, .admission 0, .admission 0, .admission 0, .admission 0]
      (.start (downloader data) 1) = some s ∧ Alone ⟨s, []⟩ 1 r ∧ s.os.script = [] ∧ s.os.now = 1 ∧
      s.os.files.contentOf n = some data ∧ r = { newRequest cfg 1 0 .get (ascii "f") 0 left with
        arrivalNs := 1, fileFd := n, bytes := UInt64.ofNat data.length } := by
  have accepted : ∃ s, run cfg [.accept, .count, .spawn] (.start (downloader data) 1) = some s ∧
      Lone data s .reading ∧ s.os.arrived 0 = ascii "GET f" ++ [newline] ∧ s.nextId = 1 :=
    ⟨_, rfl, ⟨rfl, rfl, rfl, rfl, rfl, rfl, rfl, rfl⟩, rfl, rfl⟩
  obtain ⟨s, accepted, lone, arrived, first⟩ := accepted
  obtain ⟨s₁, left, reads, lone, next⟩ := @Lone.reads cfg _ _ lone arrived
  obtain ⟨s₂, numbers, lone, heap⟩ := @Lone.numbers cfg _ _ _ _ _ _ lone (next.trans first)
  obtain ⟨s₃, stamps, lone, heap⟩ := @Lone.stamps cfg _ _ lone _ heap rfl
  have path : (newRequest cfg 1 0 .get (ascii "f") 0 left).path = ascii "d/f" := by
    rw [newRequest, dir]
    change ascii "d" ++ ascii "/" ++ ascii "f" = ascii "d/f"
    decide
  obtain ⟨s₄, n, opens, lone, heap, content⟩ := @Lone.opens cfg _ _ lone _ heap path
  obtain ⟨s₅, enqueues, alone, os⟩ := @Lone.enqueues cfg _ _ lone _ heap
  refine ⟨s₅, _, left, n, ?_, alone, os ▸ lone.script, os ▸ lone.now, os ▸ content, rfl⟩
  change run cfg ([.accept, .count, .spawn] ++ [.admission 0, .admission 0, .admission 0, .admission 0, .admission 0]) _ = _
  rw [run_append, accepted, Option.bind_some, run, reads, Option.bind_some, run, numbers, Option.bind_some, run, stamps,
    Option.bind_some, run, opens, Option.bind_some, run, enqueues, Option.bind_some, run]

end Lone
theorem Clocked.run_append (cfg : Config) (as bs : List Turn) (c : Clocked) :
    Clocked.run cfg (as ++ bs) c = (Clocked.run cfg as c).bind (Clocked.run cfg bs) := by
  induction as generalizing c with
  | nil => rfl
  | cons a as ih =>
    rw [List.cons_append, run, run, Option.bind_assoc]
    congr 1
    funext c'
    exact ih c'

theorem Clocked.run_acts {cfg : Config} {as : List Act} {s s' : Server} (late : List Nat)
    (others : ∀ a ∈ as, ∀ w, a ≠ .work w) (run : LinkScheduling.run cfg as s = some s') :
    Clocked.run cfg (as.map .act) ⟨s, late⟩ = some ⟨s', late⟩ := by
  induction as generalizing s with
  | nil =>
    cases run
    rfl
  | cons a as ih =>
    obtain ⟨u, hu, rest⟩ := Option.bind_eq_some_iff.mp run
    have free : Clocked.free ⟨s, late⟩ a = true := by
      cases a with
      | work w => exact absurd rfl (others _ List.mem_cons_self w)
      | _ => rfl
    rw [List.map_cons, Clocked.run, Clocked.step, if_pos free, hu, Option.map_some, Option.bind_some]
    exact ih (fun b hb => others b (List.mem_cons_of_mem a hb)) rest

/-- The turns of a run in which the only worker serves one slice, or writes the row of a request. -/
def cycle : List Turn := [.take 0, .stamp 0, .act (.work 0), .act (.work 0)]

theorem serveOrReport_ok {fd : Int} {sp : SliceParams} {j : Job} {res : SliceResult}
    (h : (serveSlice fd sp j).value = .ok res) : serveOrReport fd sp j = serveSlice fd sp j := by
  rw [serveOrReport, Prog.rescue, h]
  exact congrArg (fun v => Outcome.mk v (serveSlice fd sp j).state (serveSlice fd sp j).log) h.symm

def Request.begunAt (r : Request) (now : Nat) : Request :=
  { r with startNs := if r.startNs = 0 then now else r.startNs }

section Cycle
variable {cfg : Config} {c : Clocked} {id : Nat} {r : Request}

theorem Alone.handed (h : Alone c id r) (hp : cfg.sp.policy ≠ .sjf) :
    ∃ s, Clocked.run cfg [.take 0, .stamp 0] c = some ⟨s, []⟩ ∧ s.crashed = false ∧ s.workers = [.holding id] ∧
      s.queue = [] ∧ s.heap = Function.update c.server.heap id (some (r.begunAt c.server.os.now)) ∧
      s.os = c.server.os ∧ s.accounts = c.server.accounts := by
  obtain ⟨s, late⟩ := c
  obtain ⟨up, workers, queue, none, heap⟩ := h
  simp only at up workers queue none heap
  refine ⟨({ s with queue := [] }.setWorker 0 (.holding id)).setRequest id (some (r.begunAt s.os.now)),
    ?_, up, ?_, rfl, rfl, rfl, rfl⟩
  · simp [Clocked.run, Clocked.step, Clocked.take, Clocked.stamp, Clocked.taken, up, workers, queue, none, heap, pick,
      hp, Server.setWorker, Server.setRequest, Worker.request, Request.begunAt]
  · simp [Server.setWorker, Server.setRequest, workers]

theorem Alone.again (h : Alone c id r) (hp : cfg.sp.policy ≠ .sjf) {o : Round}
    (ho : o = serveSlice r.clientFd cfg.sp ⟨r.begunAt c.server.os.now, c.server.os⟩)
    (preempted : o.value = .ok .preempted) : ∃ c', Clocked.run cfg cycle c = some c' ∧ Alone c' id o.state.req ∧
      c'.server.os = o.state.os ∧ c'.server.accounts = c.server.accounts := by
  obtain ⟨s, run, up, workers, queue, heap, os, accounts⟩ := h.handed hp
  have heap' : s.heap id = some (r.begunAt c.server.os.now) := by rw [heap, Function.update_self]
  have slice : serveOrReport r.clientFd cfg.sp ⟨r.begunAt c.server.os.now, s.os⟩ = o := by
    rw [os, serveOrReport_ok (ho ▸ preempted), ho]
  have fd : (r.begunAt c.server.os.now).clientFd = r.clientFd := rfl
  refine ⟨⟨{ s.afterSlice id o with queue := [id], workers := [.asking] }, []⟩, ?_, ⟨up, rfl, rfl, rfl, ?_⟩, rfl, accounts⟩
  · change Clocked.run cfg ([.take 0, .stamp 0] ++ [.act (.work 0), .act (.work 0)]) c = _
    rw [Clocked.run_append, run, Option.bind_some]
    simp [Clocked.run, Clocked.step, Clocked.free, LinkScheduling.step, workerStep, up, workers, heap', slice, fd,
      Server.sliceDone, preempted, Server.afterSlice, Server.setWorker, queue]
  · simp [Server.afterSlice]

theorem Alone.logged (h : Alone c id r) (hp : cfg.sp.policy ≠ .sjf) {o : Round}
    (ho : o = serveSlice r.clientFd cfg.sp ⟨r.begunAt c.server.os.now, c.server.os⟩)
    (done : o.value = .ok .done) : ∃ c', Clocked.run cfg cycle c = some c' ∧
      { o.state.req with finishNs := o.state.os.now } ∈ c'.server.accounts.rows := by
  obtain ⟨s, run, up, workers, queue, heap, os, accounts⟩ := h.handed hp
  have heap' : s.heap id = some (r.begunAt c.server.os.now) := by rw [heap, Function.update_self]
  have slice : serveOrReport r.clientFd cfg.sp ⟨r.begunAt c.server.os.now, s.os⟩ = o := by
    rw [os, serveOrReport_ok (ho ▸ done), ho]
  have fd : (r.begunAt c.server.os.now).clientFd = r.clientFd := rfl
  have run' : Clocked.run cfg cycle c = some ⟨({ s.afterSlice id o with
      accounts := s.accounts.record .done { o.state.req with finishNs := o.state.os.now } }.setRequest id
        (some { o.state.req with finishNs := o.state.os.now })).setWorker 0 (.recorded id), []⟩ := by
    change Clocked.run cfg ([.take 0, .stamp 0] ++ [.act (.work 0), .act (.work 0)]) c = _
    rw [Clocked.run_append, run, Option.bind_some]
    simp [Clocked.run, Clocked.step, Clocked.free, LinkScheduling.step, workerStep, up, workers, heap', slice, fd,
      Server.sliceDone, done, Server.afterSlice, Server.setWorker, Server.setRequest]
  exact ⟨_, run', List.mem_append_right _ List.mem_cons_self⟩

end Cycle
theorem callRounds_eq_cons {x : Slice SliceResult} {fuel : Nat} {j : Job} {o : Round} {os : List Round}
    (h : callRounds x fuel j = o :: os) : o = x j ∧ (os ≠ [] → ∃ fuel', callRounds x fuel' (x j).state = os) := by
  cases fuel with
  | zero => cases h
  | succ fuel =>
    by_cases preempted : (x j).value = .ok .preempted
    · rw [callRounds_preempted fuel preempted] at h
      obtain ⟨first, rest⟩ := List.cons.inj h
      exact ⟨first.symm, fun _ => ⟨fuel, rest⟩⟩
    · rw [callRounds_over fuel preempted] at h
      obtain ⟨first, rest⟩ := List.cons.inj h
      exact ⟨first.symm, fun more => absurd rest.symm more⟩

theorem Alone.served {cfg : Config} {c : Clocked} {id : Nat} {r : Request} {fd : Int} (hp : cfg.sp.policy ≠ .sjf)
    {front : List Round} {last : Round} (h : Alone c id r) (clock : 0 < c.server.os.now) (hfd : r.clientFd = fd) {fuel : Nat}
    (rounds : serveRounds fd cfg.sp fuel ⟨r.begunAt c.server.os.now, c.server.os⟩ = front ++ [last])
    (preempted : ∀ o ∈ front, o.value = .ok .preempted) (done : last.value = .ok .done) :
    ∃ c', Clocked.run cfg (List.replicate (front.length + 1) cycle).flatten c = some c' ∧
      { last.state.req with finishNs := last.state.os.now } ∈ c'.server.accounts.rows := by
  subst hfd
  induction front generalizing c r fuel with
  | nil =>
    obtain ⟨ho, -⟩ := callRounds_eq_cons rounds
    obtain ⟨c', run, row⟩ := h.logged hp ho done
    refine ⟨c', ?_, row⟩
    rw [List.length_nil, List.replicate_one, List.flatten_singleton]
    exact run
  | cons o front ih =>
    obtain ⟨ho, later⟩ := callRounds_eq_cons rounds
    obtain ⟨fuel', more⟩ := later (by simp)
    obtain ⟨c₁, run, alone, os, -⟩ := h.again hp ho (preempted o List.mem_cons_self)
    have fixed := (serveSlice_apart r.clientFd cfg.sp ⟨r.begunAt c.server.os.now, c.server.os⟩).fixed
    have now := (serveSlice_counts r.clientFd cfg.sp ⟨r.begunAt c.server.os.now, c.server.os⟩).ages
    rw [← ho] at fixed now more
    change c.server.os.now ≤ o.state.os.now at now
    obtain ⟨-, -, start⟩ := fixed_stamps fixed
    have fd : o.state.req.clientFd = r.clientFd := show o.state.req.fixed.clientFd = _ by rw [fixed]; rfl
    have begun : o.state.req.startNs ≠ 0 := by
      rw [start, Request.begunAt]
      simp only
      split <;> omega
    have same : o.state.req.begunAt c₁.server.os.now = o.state.req := by
      rw [Request.begunAt, if_neg begun]
    have rounds' : serveRounds o.state.req.clientFd cfg.sp fuel' ⟨o.state.req.begunAt c₁.server.os.now, c₁.server.os⟩ =
        front ++ [last] := by
      rw [fd, same, os]
      exact more
    obtain ⟨c', rest, row⟩ := ih alone (by rw [os]; omega) (fun x hx => preempted x (List.mem_cons_of_mem _ hx)) rounds'
    refine ⟨c', ?_, row⟩
    rw [List.length_cons, List.replicate_succ, List.flatten_cons, Clocked.run_append, run, Option.bind_some]
    exact rest

def downloadTurns (n : Nat) : List Turn :=
  [Act.accept, .count, .spawn, .admission 0, .admission 0, .admission 0, .admission 0, .admission 0].map .act ++
    (List.replicate n cycle).flatten

theorem downloader_row {cfg : Config} (dir : cfg.fileDir = ascii "d") (hp : cfg.sp.policy = .drr)
    (hq : cfg.sp.quantum.toNat = 1) {data : Bytes} (some_ : 0 < data.length) (small : data.length < offLimit) : ∃ c r,
    Clocked.run cfg (downloadTurns data.length) ⟨.start (downloader data) 1, []⟩ = some c ∧
      r ∈ c.server.accounts.rows ∧ r.rounds = data.length := by
  obtain ⟨s, r, left, n, admits, alone, script, now, content, hr⟩ := downloader_admitted dir data
  have bound : offLimit = 2 ^ 63 := rfl
  have fresh : FreshGet data ⟨r.begunAt s.os.now, s.os⟩ := by
    subst hr
    refine ⟨rfl, content, ?_, small, rfl, rfl, rfl, rfl, rfl⟩
    change (UInt64.ofNat data.length).toNat = data.length
    rw [UInt64.toNat_ofNat']
    omega
  have hob : Job.Obliging ⟨r.begunAt s.os.now, s.os⟩ := by
    intro x hx
    rw [script] at hx
    cases hx
  have run := fresh.run hob r.clientFd (fun _ => by rw [hq]; exact Nat.one_pos) (Nat.lt_succ_self _)
  obtain ⟨front, last, rounds, states, done, -⟩ := run.ends_drr hp fresh
  have length := run.length_drr hp (by rw [hq]; exact Nat.one_pos) fresh
  rw [hq, rounds, List.length_append, List.length_singleton] at length
  have many : front.length + 1 = data.length := by omega
  obtain ⟨c, served, row⟩ := alone.served (by rw [hp]; decide) (by rw [now]; exact Nat.one_pos) rfl rounds
    (fun o ho => (states o ho).1) done
  have count := callRounds_rounds (serveSlice_counts r.clientFd cfg.sp) (k := front.length) (o := last)
    (show (serveRounds _ _ _ _)[_]? = _ by rw [rounds]; simp)
  refine ⟨c, _, ?_, row, ?_⟩
  · rw [downloadTurns, Clocked.run_append, Clocked.run_acts [] (by simp) admits, Option.bind_some, ← many]
    exact served
  · have none := fresh.rounds
    change last.state.req.rounds = data.length
    omega

end LinkScheduling
