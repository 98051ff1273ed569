import LinkScheduling.Confinement
import LinkScheduling.Grammar

/-! The A14 branch of `serve_get` in the runs of the server: the turns that take it, and which of
them get as far as `log_a14_fire`. These are the A14 lines in the log, in order, and the names in
them are words of a header line. -/

namespace LinkScheduling
open Effect

/-- A turn that takes the A14 branch. It is logged unless a call fails first: the line is sent
before, and the text of the entry is allocated. -/
structure Fire where
  requestId : Nat
  filename : Bytes
  lineBytes : UInt64
  quantum : UInt64
  logged : Bool
  deriving DecidableEq

def Fire.entry (f : Fire) : Nat × Bytes × UInt64 × UInt64 := (f.requestId, f.filename, f.lineBytes, f.quantum)

def entries (fs : List Fire) : List (Nat × Bytes × UInt64 × UInt64) := (fs.filter Fire.logged).map Fire.entry

theorem entries_append (fs gs : List Fire) : entries (fs ++ gs) = entries fs ++ entries gs := by
  rw [entries, List.filter_append, List.map_append, ← entries, ← entries]

theorem entries_single (f : Fire) : entries [f] = if f.logged = true then [f.entry] else [] := by
  unfold entries
  rw [List.filter_singleton]
  cases f.logged <;> rfl

def longLine (sp : SliceParams) (v : GetLocals) (j : Job) : Option UInt64 :=
  if j.req.byteOffset < j.req.bytes then
    match (lineLengthAt j.req.fileFd j.req.byteOffset j.req.bytes j.os).value with
    | .ok len => if sp.policy = .rr ∧ v.sentThisRound = 0 ∧ len > sp.quantum then some len else none
    | .error _ => none
  else none

def beforeEntry (fd : Int) (v : GetLocals) (r : Request) (len : UInt64) : Sys Bool := do
  if ← v.batch.flush fd then
    if ← streamRange r.fileFd fd r.byteOffset len then
      alloc
      pure true
    else pure false
  else pure false

def turnFires (fd : Int) (sp : SliceParams) (v : GetLocals) (j : Job) : List Fire :=
  match longLine sp v j with
  | none => []
  | some len =>
    let os := (lineLengthAt j.req.fileFd j.req.byteOffset j.req.bytes j.os).state
    [{ requestId := j.req.id
       filename := j.req.filename
       lineBytes := len
       quantum := sp.quantum
       logged := (beforeEntry fd v j.req len os).value = .ok true }]

def loopFires (fd : Int) (sp : SliceParams) : Nat → GetLocals → Job → List Fire
  | 0, _, _ => []
  | fuel + 1, v, j =>
    turnFires fd sp v j ++
      match (getTurn fd sp v j).value with
      | .ok (.inl v') => loopFires fd sp fuel v' (getTurn fd sp v j).state
      | _ => []

def getFires (fd : Int) (sp : SliceParams) (j : Job) : List Fire :=
  let o := sendHeader fd { j with req := { j.req with rounds := j.req.rounds + 1 } }
  match o.value with
  | .ok true =>
    let r := o.state.req
    loopFires fd sp ((r.bytes - r.byteOffset).toNat + 1) { left := allowance sp r.deficit } o.state
  | _ => []

def sliceFires (fd : Int) (sp : SliceParams) (j : Job) : List Fire :=
  match j.req.op with
  | .get => getFires fd sp j
  | .put => []

def stepFires (cfg : Config) (a : Act) (s : Server) : List Fire :=
  match a with
  | .work w =>
    match s.workers[w]? with
    | some (.holding id) => ((s.heap id).map fun r => sliceFires r.clientFd cfg.sp ⟨r, s.os⟩).getD []
    | _ => []
  | _ => []

def runFires (cfg : Config) : List Act → Server → List Fire
  | [], _ => []
  | a :: as, s =>
    match step cfg a s with
    | some s' => stepFires cfg a s ++ runFires cfg as s'
    | none => []

def Event.isA14 : Event → Bool
  | .a14 .. => true
  | _ => false

theorem a14Of_append (l l' : List Event) : a14Of (l ++ l') = a14Of l ++ a14Of l' := List.filterMap_append

theorem a14Of_eq_nil {l : List Event} (h : ∀ e ∈ l, e.isA14 = false) : a14Of l = [] := by
  apply List.filterMap_eq_nil_iff.mpr
  intro e he
  have other := h e he
  cases e with
  | a14 => cases other
  | _ => rfl

abbrev Unfired {σ α : Type} (x : Prog Fault σ Event α) : Prop :=
  Within (fun _ => True) (fun e => e.isA14 = false) x

theorem Unfired.a14Of {σ α : Type} {x : Prog Fault σ Event α} (h : Unfired x) (s : σ) : a14Of (x s).log = [] :=
  a14Of_eq_nil (h s trivial).2

section Unfired
variable {α : Type}

theorem call_unfired {f : Verdict → Os → Outcome Fault Os Event α}
    (h : ∀ v os, ∀ e ∈ (f v os).log, e.isA14 = false) : Unfired (call f) :=
  fun os _ => ⟨trivial, h os.verdict os.answered⟩

theorem alloc_unfired : Unfired alloc := by
  apply call_unfired
  rintro (most | e) os
  · exact List.forall_mem_nil _
  · exact List.forall_mem_singleton.mpr rfl

theorem pread_unfired (fd : Int) (want pos : Nat) : Unfired (pread fd want pos) := by
  apply call_unfired
  rintro (most | e) os
  · simp only
    split
    · exact List.forall_mem_singleton.mpr rfl
    · split <;> exact List.forall_mem_singleton.mpr rfl
  · exact List.forall_mem_singleton.mpr rfl

theorem send_unfired (fd : Int) (data : Bytes) : Unfired (send fd data) := by
  apply call_unfired
  rintro (most | e) os <;> exact List.forall_mem_singleton.mpr rfl

theorem sendAll_unfired (fd : Int) (data : Bytes) : Unfired (sendAll fd data) := by
  refine .bind (.emit rfl) fun _ => .bind .get fun _ => .loop (fun sent => ?_) _ _
  refine .ite (.bind (send_unfired fd _) fun r => ?_) (.pure _)
  split <;> exact .pure _

theorem sendError_unfired (fd : Int) (reason : Bytes) : Unfired (sendError fd reason) :=
  .bind alloc_unfired fun _ => .bind (sendAll_unfired fd _) fun _ => .pure _

theorem recv_unfired (fd : Int) (n : Nat) : Unfired (recv fd n) := fun os =>
  call_unfired (f := fun v os' => _) (by rintro (most | e) os' <;> exact List.forall_mem_singleton.mpr rfl) os

theorem armed_unfired (fd : Int) (timeoutMs : Int) (deadline : Nat) : Unfired (armed fd timeoutMs deadline) := by
  refine .ite (fun os _ => ?_) (.pure _)
  unfold armRemaining
  simp only
  split <;> exact ⟨trivial, List.forall_mem_singleton.mpr rfl⟩

theorem readExact_unfired (fd : Int) (leftover : Bytes) (n : Nat) (timeoutMs : Int) :
    Unfired (readExact fd leftover n timeoutMs) := by
  refine .bind .get fun os => .bind (.loop (fun out => ?_) _ _) fun _ => .pure _
  refine .ite (.bind (armed_unfired fd _ _) fun _ => .ite (.bind (recv_unfired fd _) fun r => ?_) (.pure _)) (.pure _)
  split <;> exact .pure _

theorem readHeaderLine_unfired (fd : Int) (timeoutMs : Int) : Unfired (readHeaderLine fd timeoutMs) := by
  refine .bind .get fun os => .loop (fun line => ?_) _ _
  refine .bind (armed_unfired fd _ _) fun _ => .ite (.bind (recv_unfired fd _) fun r => ?_) (.pure _)
  split
  · exact .pure _
  · exact .pure _
  · exact .pure _
  · split
    · exact .pure _
    · exact .ite (.bind (.modify fun _ _ => trivial) fun _ => .pure _) (.pure _)

theorem write_unfired (fd : Int) (data : Bytes) : Unfired (write fd data) := by
  apply call_unfired
  rintro (most | e) os
  · simp only
    split <;> exact List.forall_mem_singleton.mpr rfl
  · exact List.forall_mem_singleton.mpr rfl

theorem writeAll_unfired (fd : Int) (data : Bytes) : Unfired (writeAll fd data) := by
  refine .bind .get fun _ => .loop (fun done => ?_) _ _
  refine .ite (.bind (write_unfired fd _) fun r => ?_) (.pure _)
  split <;> exact .pure _

theorem openTrunc_unfired (p : Path) : Unfired (openTrunc p) := by
  apply call_unfired
  rintro (most | e) os <;> exact List.forall_mem_singleton.mpr rfl

theorem openRead_unfired (p : Path) : Unfired (openRead p) := by
  apply call_unfired
  rintro (most | e) os
  · simp only
    split <;> exact List.forall_mem_singleton.mpr rfl
  · exact List.forall_mem_singleton.mpr rfl

theorem fstat_unfired (fd : Int) : Unfired (fstat fd) := by
  apply call_unfired
  rintro (most | e) os
  · simp only
    split
    · exact List.forall_mem_singleton.mpr rfl
    · exact List.forall_mem_nil _
  · exact List.forall_mem_singleton.mpr rfl

theorem rename_unfired (src dst : Path) : Unfired (rename src dst) := by
  apply call_unfired
  rintro (most | e) os
  · simp only
    split <;> exact List.forall_mem_singleton.mpr rfl
  · exact List.forall_mem_singleton.mpr rfl

theorem unlink_unfired (p : Path) : Unfired (unlink p) := by
  apply call_unfired
  rintro (most | e) os
  · simp only
    split <;> exact List.forall_mem_singleton.mpr rfl
  · exact List.forall_mem_singleton.mpr rfl

theorem close_unfired (fd : Int) : Unfired (close fd) :=
  fun _ _ => ⟨trivial, List.forall_mem_singleton.mpr rfl⟩

theorem answer_unfired (fd : Int) (reply : Bytes) : Unfired (answer fd reply) :=
  .bind (sendAll_unfired fd _) fun _ => close_unfired fd

theorem openGet_unfired (p : Path) : Unfired (openGet p) := by
  refine .bind (openRead_unfired p) fun n => ?_
  cases n with
  | none => exact .pure _
  | some n =>
    refine .bind (fstat_unfired n) fun size => ?_
    cases size with
    | some size => exact .pure _
    | none => exact .bind (close_unfired n) fun _ => .pure _

theorem flush_unfired (b : Batch) (fd : Int) : Unfired (b.flush fd) := .ite (.pure _) (sendAll_unfired fd _)

theorem lineLengthAt_unfired (file : Int) (offset size : UInt64) : Unfired (lineLengthAt file offset size) := by
  refine .loop (fun pos => .ite (.bind (pread_unfired file _ _) fun buf => ?_) (.pure _)) _ _
  exact .ite (.pure _) (.ite (.pure _) (.pure _))

theorem appendRange_unfired (file : Int) (offset len : UInt64) (out : Bytes) :
    Unfired (appendRange file offset len out) := by
  refine .bind alloc_unfired fun _ => .bind (.loop (fun got => ?_) _ _) fun r => ?_
  · exact .ite (.bind (pread_unfired file _ _) fun _ => .ite (.pure _) (.pure _)) (.pure _)
  · cases r <;> exact .pure _

theorem streamRange_unfired (file fd : Int) (offset len : UInt64) : Unfired (streamRange file fd offset len) := by
  refine .bind alloc_unfired fun _ => .loop (fun done => ?_) _ _
  exact .ite (.bind (pread_unfired file _ _) fun _ => .ite (.pure _)
    (.bind (sendAll_unfired fd _) fun _ => .ite (.pure _) (.pure _))) (.pure _)

theorem onOs_unfired {x : Sys α} (h : Unfired x) : Unfired (onOs x) := Within.zoom h fun _ _ => rfl

theorem request_unfired : Unfired request := fun _ _ => ⟨trivial, List.forall_mem_nil _⟩

theorem setRequest_unfired (f : Request → Request) : Unfired (setRequest f) := .modify fun _ _ => trivial

theorem sendHeader_unfired (fd : Int) : Unfired (sendHeader fd) := by
  refine .bind request_unfired fun r => .ite (.pure _) (.bind (onOs_unfired alloc_unfired) fun _ => ?_)
  exact .bind (onOs_unfired (sendAll_unfired fd _)) fun _ =>
    .ite (.bind (setRequest_unfired _) fun _ => .pure _) (.pure _)

theorem endRound_unfired (fd : Int) (sp : SliceParams) (v : GetLocals) : Unfired (endRound fd sp v) := by
  refine .bind (onOs_unfired (flush_unfired _ fd)) fun _ => .ite ?_ (.pure _)
  exact .ite (.bind (setRequest_unfired _) fun _ => .pure _) (.bind (setRequest_unfired _) fun _ => .pure _)

theorem emitLine_unfired (fd : Int) (sp : SliceParams) (b : Batch) (len : UInt64) :
    Unfired (emitLine fd sp b len) := by
  refine .bind request_unfired fun r => .ite ?_ (.bind (onOs_unfired (appendRange_unfired _ _ _ _)) fun data => ?_)
  · exact .bind (onOs_unfired (flush_unfired b fd)) fun _ => .ite
      (.bind (onOs_unfired (streamRange_unfired _ fd _ _)) fun _ => .ite (.pure _) (.pure _)) (.pure _)
  · exact .ite (.ite (.bind (onOs_unfired (flush_unfired _ fd)) fun _ => .ite (.pure _) (.pure _)) (.pure _)) (.pure _)

theorem sendLine_unfired (fd : Int) (sp : SliceParams) (v : GetLocals) (len : UInt64) :
    Unfired (sendLine fd sp v len) := by
  refine .bind (emitLine_unfired fd sp v.batch len) fun b => ?_
  cases b with
  | none => exact .pure _
  | some b => exact .bind (setRequest_unfired _) fun _ => .pure _

theorem finishGet_unfired (fd : Int) (v : GetLocals) : Unfired (finishGet fd v) := by
  refine .bind (onOs_unfired (flush_unfired _ fd)) fun _ => .ite ?_ (.pure _)
  exact .bind (setRequest_unfired _) fun _ => .pure _

theorem beginPut_unfired (fd : Int) : Unfired (beginPut fd) := by
  refine .bind request_unfired fun r => .ite (.pure _) (.bind (onOs_unfired alloc_unfired) fun _ =>
    .bind (setRequest_unfired _) fun _ => .bind (onOs_unfired (openTrunc_unfired _)) fun n => ?_)
  cases n with
  | none =>
    exact .bind (setRequest_unfired _) fun _ => .bind (onOs_unfired (sendError_unfired fd _)) fun _ => .pure _
  | some n =>
    refine .bind (setRequest_unfired _) fun _ => .bind (onOs_unfired alloc_unfired) fun _ =>
      .bind (onOs_unfired (sendAll_unfired fd _)) fun ok => .ite ?_ (.pure _)
    exact .bind (setRequest_unfired _) fun _ => .pure _

theorem putTurn_unfired (fd : Int) (take size done : UInt64) : Unfired (putTurn fd take size done) := by
  refine .ite (.bind request_unfired fun r => .bind (onOs_unfired (readExact_unfired fd _ _ _)) fun x =>
    .bind (setRequest_unfired _) fun _ => .ite ?_ ?_) (.pure _)
  · refine .bind (onOs_unfired (writeAll_unfired _ _)) fun ok => .ite ?_ ?_
    · exact .bind (setRequest_unfired _) fun _ => .pure _
    · exact .bind (onOs_unfired (sendError_unfired fd _)) fun _ => .pure _
  · exact .bind (onOs_unfired (sendError_unfired fd _)) fun _ => .pure _

theorem installPut_unfired (fd : Int) : Unfired (installPut fd) := by
  refine .bind request_unfired fun r => .bind (onOs_unfired (close_unfired _)) fun _ =>
    .bind (setRequest_unfired _) fun _ => .bind (onOs_unfired (rename_unfired _ _)) fun ok => .ite ?_ ?_
  · exact .bind (setRequest_unfired _) fun _ => .bind (onOs_unfired alloc_unfired) fun _ =>
      .bind (onOs_unfired (sendAll_unfired fd _)) fun sent => .ite (.pure _) (.pure _)
  · exact .bind (onOs_unfired (sendError_unfired fd _)) fun _ => .pure _

theorem servePut_unfired (fd : Int) (sp : SliceParams) : Unfired (servePut fd sp) := by
  refine .bind (setRequest_unfired _) fun _ => .bind (beginPut_unfired fd) fun ok => .ite ?_ (.pure _)
  refine .bind request_unfired fun r => .bind (onOs_unfired alloc_unfired) fun _ =>
    .bind (.loop (putTurn_unfired fd _ _) _ _) fun ok => .ite (.bind request_unfired fun r => ?_) (.pure _)
  exact .ite (.pure _) (installPut_unfired fd)

theorem finalise_unfired : Unfired finalise := by
  refine .bind (.bind request_unfired fun r => .ite ?_ ?_) fun _ =>
    .bind request_unfired fun r => onOs_unfired (close_unfired _)
  · refine .bind (onOs_unfired (close_unfired _)) fun _ => .bind (setRequest_unfired _) fun _ => .ite ?_ (.pure _)
    exact .bind (onOs_unfired (unlink_unfired _)) fun _ => setRequest_unfired _
  · exact .ite (.bind (onOs_unfired (unlink_unfired _)) fun _ => setRequest_unfired _) (.pure _)

end Unfired

section Logged
variable {σ α β : Type}

theorem a14Of_bind (x : Prog Fault σ Event α) (f : α → Prog Fault σ Event β) (s : σ) :
    a14Of ((x >>= f) s).log = a14Of (x s).log ++
      match (x s).value with
      | .ok a => a14Of (f a (x s).state).log
      | .error _ => [] := by
  change a14Of (Prog.bind x f s).log = _
  unfold Prog.bind
  cases (x s).value with
  | ok a => exact a14Of_append _ _
  | error e => exact (List.append_nil _).symm

theorem Unfired.a14Of_bind {x : Prog Fault σ Event α} (h : Unfired x) (f : α → Prog Fault σ Event β) (s : σ) :
    LinkScheduling.a14Of ((x >>= f) s).log =
      match (x s).value with
      | .ok a => LinkScheduling.a14Of (f a (x s).state).log
      | .error _ => [] := by
  rw [LinkScheduling.a14Of_bind, h.a14Of, List.nil_append]

theorem value_bind (x : Prog Fault σ Event α) (f : α → Prog Fault σ Event β) (s : σ) :
    ((x >>= f) s).value =
      match (x s).value with
      | .ok a => (f a (x s).state).value
      | .error e => .error e := by
  change (Prog.bind x f s).value = _
  unfold Prog.bind
  cases (x s).value <;> rfl

theorem a14Of_map (f : α → β) (x : Prog Fault σ Event α) (s : σ) : a14Of ((f <$> x) s).log = a14Of (x s).log := by
  change a14Of ((x >>= fun a => pure (f a)) s).log = _
  rw [LinkScheduling.a14Of_bind]
  cases (x s).value <;> exact List.append_nil _

theorem a14Of_loop {out : Fault} {body : β → Prog Fault σ Event (β ⊕ α)} (fuel : Nat) (b : β) (s : σ) :
    a14Of (Prog.loop out body (fuel + 1) b s).log = a14Of (body b s).log ++
      match (body b s).value with
      | .ok (.inl b') => a14Of (Prog.loop out body fuel b' (body b s).state).log
      | _ => [] := by
  change a14Of ((body b >>= _) s).log = _
  rw [LinkScheduling.a14Of_bind]
  rcases (body b s).value with e | b' | a <;> rfl

end Logged

section Slices
variable (fd : Int) (sp : SliceParams)

theorem onOs_value {α : Type} (x : Sys α) (j : Job) : (onOs x j).value = (x j.os).value := rfl

theorem onOs_state {α : Type} (x : Sys α) (j : Job) : (onOs x j).state = { j with os := (x j.os).state } := rfl

theorem onOs_log {α : Type} (x : Sys α) (j : Job) : (onOs x j).log = (x j.os).log := rfl

theorem logA14Fire_a14 (id : Nat) (name : Bytes) (len quantum : UInt64) (os : Os) :
    a14Of (logA14Fire id name len quantum os).log =
      if (alloc os).value = .ok () then [(id, name, len, quantum)] else [] := by
  rw [logA14Fire, alloc_unfired.a14Of_bind]
  cases (alloc os).value <;> rfl

theorem sendLongLine_a14 (v : GetLocals) (len : UInt64) (j : Job) :
    a14Of (sendLongLine fd sp v len j).log =
      if (beforeEntry fd v j.req len j.os).value = .ok true then [(j.req.id, j.req.filename, len, sp.quantum)]
      else [] := by
  unfold sendLongLine beforeEntry
  rw [request_unfired.a14Of_bind, value_bind]
  simp only [request]
  rw [(onOs_unfired (flush_unfired v.batch fd)).a14Of_bind, onOs_value, onOs_state]
  rcases (v.batch.flush fd j.os).value with e | _ | _
  · rfl
  · rfl
  simp only [if_true]
  rw [(onOs_unfired (streamRange_unfired _ fd _ len)).a14Of_bind, value_bind, onOs_value, onOs_state]
  simp only
  rcases (streamRange j.req.fileFd fd j.req.byteOffset len (v.batch.flush fd j.os).state).value with e | _ | _
  · rfl
  · rfl
  simp only [if_true]
  rw [(setRequest_unfired _).a14Of_bind, value_bind]
  simp only [setRequest, Prog.modify]
  have ends : ∀ k : Job, a14Of ((request >>= fun r =>
      pure (if r.byteOffset ≥ r.bytes then .done else .preempted) : Slice SliceResult) k).log = [] :=
    Unfired.a14Of (.bind request_unfired fun r => .pure _)
  rw [a14Of_bind, onOs_value, onOs_log, logA14Fire_a14]
  simp only [ends]
  generalize (streamRange j.req.fileFd fd j.req.byteOffset len (v.batch.flush fd j.os).state).state = os
  generalize (logA14Fire j.req.id j.req.filename len sp.quantum os).value = logged
  cases (alloc os).value <;> cases logged <;> rfl

theorem getTurn_a14 (v : GetLocals) (j : Job) : a14Of (getTurn fd sp v j).log = entries (turnFires fd sp v j) := by
  unfold getTurn turnFires longLine
  rw [request_unfired.a14Of_bind]
  simp only [request]
  by_cases more : j.req.byteOffset < j.req.bytes
  · rw [if_pos more, if_pos more, (onOs_unfired (lineLengthAt_unfired _ _ _)).a14Of_bind, onOs_value, onOs_state]
    cases found : (lineLengthAt j.req.fileFd j.req.byteOffset j.req.bytes j.os).value with
    | error e => rfl
    | ok len =>
      simp only
      by_cases none : len = 0
      · have short : ¬ len > sp.quantum := by
          rw [none, gt_iff_lt, UInt64.not_lt]
          exact UInt64.zero_le
        rw [if_pos none, if_neg fun long => short long.2.2]
        rfl
      · rw [if_neg none]
        by_cases long : sp.policy = .rr ∧ v.sentThisRound = 0 ∧ len > sp.quantum
        · rw [if_pos long, if_pos long, a14Of_map, sendLongLine_a14]
          simp only [entries_single, decide_eq_true_eq]
          rfl
        · rw [if_neg long, if_neg long]
          split
          · rw [a14Of_map]
            exact (endRound_unfired fd sp v).a14Of _
          · exact (sendLine_unfired fd sp v len).a14Of _
  · rw [if_neg more, if_neg more, a14Of_map]
    exact (finishGet_unfired fd v).a14Of _

theorem loop_a14 (fuel : Nat) (v : GetLocals) (j : Job) :
    a14Of (Prog.loop .spent (getTurn fd sp) fuel v j).log = entries (loopFires fd sp fuel v j) := by
  induction fuel generalizing v j with
  | zero => rfl
  | succ fuel ih =>
    rw [a14Of_loop, getTurn_a14, loopFires, entries_append]
    rcases (getTurn fd sp v j).value with e | v' | res
    · rfl
    · exact congrArg (_ ++ ·) (ih v' _)
    · rfl

theorem serveGet_a14 (j : Job) : a14Of (serveGet fd sp j).log = entries (getFires fd sp j) := by
  unfold serveGet getFires
  rw [(setRequest_unfired _).a14Of_bind]
  simp only [setRequest, Prog.modify]
  rw [(sendHeader_unfired fd).a14Of_bind]
  generalize sendHeader fd { j with req := { j.req with rounds := j.req.rounds + 1 } } = o
  rcases o.value with e | _ | _
  · rfl
  · rfl
  · simp only [if_true]
    rw [request_unfired.a14Of_bind]
    exact loop_a14 fd sp _ _ o.state

theorem serveSlice_a14 (j : Job) : a14Of (serveSlice fd sp j).log = entries (sliceFires fd sp j) := by
  unfold sliceFires
  cases hop : j.req.op with
  | get =>
    rw [serveSlice_get fd sp hop]
    exact serveGet_a14 fd sp j
  | put =>
    rw [serveSlice_put fd sp hop]
    exact (servePut_unfired fd sp).a14Of j

theorem serveOrReport_a14 (j : Job) : a14Of (serveOrReport fd sp j).log = entries (sliceFires fd sp j) := by
  have report : Unfired (do
      onOs (sendError fd (ascii "internal error"))
      pure .failed : Slice SliceResult) := .bind (onOs_unfired (sendError_unfired fd _)) fun _ => .pure _
  rw [← serveSlice_a14]
  unfold serveOrReport Prog.rescue
  cases (serveSlice fd sp j).value with
  | ok res => rfl
  | error e =>
    refine (a14Of_append _ _).trans ?_
    cases e with
    | thrown => exact (congrArg (a14Of (serveSlice fd sp j).log ++ ·) (report.a14Of _)).trans (List.append_nil _)
    | spent => exact List.append_nil _

end Slices

section Runs
variable {cfg : Config} {s s' : Server}

theorem Server.after_a14 {α : Type} (s : Server) {o : Outcome Fault Os Event α} (h : a14Of o.log = []) :
    a14Of (s.after o).log = a14Of s.log := by
  rw [Server.after, a14Of_append, h, List.append_nil]

theorem threadStep_a14 {k : Nat} (h : threadStep cfg k s = some s') : a14Of s'.log = a14Of s.log := by
  unfold threadStep at h
  split at h
  · cases h
  · rename_i fd phase ht
    cases phase with
    | reading =>
      cases h
      have quiet := s.after_a14 ((readHeaderLine_unfired fd kHeaderTimeoutMs).a14Of s.os)
      rcases readDone_cases s k fd (readHeaderLine fd kHeaderTimeoutMs s.os) with ⟨hdr, -, next⟩ | ⟨e, -, next⟩
      · rw [next]
        exact quiet
      · rw [next]
        exact quiet
    | answering reply =>
      cases h
      exact s.after_a14 ((answer_unfired fd reply).a14Of s.os)
    | stamping id =>
      obtain ⟨r, -, rfl⟩ := Option.map_eq_some_iff.mp h
      rfl
    | opening id =>
      obtain ⟨r, -, rfl⟩ := Option.map_eq_some_iff.mp h
      have quiet := s.after_a14 ((openGet_unfired r.path).a14Of s.os)
      rcases openDone_cases s k fd id r (openGet r.path s.os) with ⟨n, size, -, next⟩ | ⟨-, next⟩ | ⟨e, -, next⟩
      · rw [next]
        exact quiet
      · rw [next]
        exact quiet
      · rw [next]
        exact quiet
    | gone => cases h
    | _ =>
      cases h
      rfl

theorem sliceDone_log (s : Server) (w id : Nat) (o : Round) : (s.sliceDone w id o).log = s.log ++ o.log := by
  rcases sliceDone_cases s w id o with ⟨-, next⟩ | ⟨res, -, -, next⟩ | ⟨e, -, next⟩
  · rw [next]
    rfl
  · rw [next]
    rfl
  · rw [next]
    rfl

theorem workerStep_a14 {w : Nat} (h : workerStep cfg w s = some s') :
    a14Of s'.log = a14Of s.log ++ entries (stepFires cfg (.work w) s) := by
  unfold workerStep at h
  unfold stepFires
  simp only
  cases hw : s.workers[w]? with
  | none =>
    rw [hw] at h
    cases h
  | some phase =>
    rw [hw] at h
    cases phase with
    | asking =>
      simp only at h
      split at h
      · split at h
        · cases h
          exact (List.append_nil _).symm
        · cases h
      · obtain ⟨id, -, taken⟩ := Option.bind_eq_some_iff.mp h
        obtain ⟨r, -, rfl⟩ := Option.map_eq_some_iff.mp taken
        exact (List.append_nil _).symm
    | holding id =>
      obtain ⟨r, hr, rfl⟩ := Option.map_eq_some_iff.mp h
      rw [sliceDone_log, a14Of_append, serveOrReport_a14]
      simp only [hr, Option.map_some, Option.getD_some]
    | preempted id =>
      cases h
      exact (List.append_nil _).symm
    | served id res =>
      obtain ⟨r, -, rfl⟩ := Option.map_eq_some_iff.mp h
      exact (List.append_nil _).symm
    | recorded id =>
      obtain ⟨r, -, rfl⟩ := Option.map_eq_some_iff.mp h
      change a14Of (s.log ++ _) = a14Of s.log ++ []
      rw [a14Of_append, finalise_unfired.a14Of]
    | exited => cases h

theorem mainStep_a14 (h : mainStep s = some s') : a14Of s'.log = a14Of s.log := by
  unfold mainStep at h
  cases hm : s.main with
  | stopping =>
    rw [hm] at h
    cases h
    rfl
  | finished =>
    rw [hm] at h
    cases h
  | _ =>
    rw [hm] at h
    simp only at h
    split at h
    all_goals cases h
    rfl

theorem acceptorStep_a14 {a : Act} (h : acceptorStep a s = some s') : a14Of s'.log = a14Of s.log := by
  unfold acceptorStep at h
  split at h
  · split at h
    · cases h
      rfl
    · cases h
  · cases h
    split <;> rfl
  · cases h
    rfl
  · cases h
    rfl
  · cases h
    rfl
  · rename_i fd ha
    cases h
    exact Server.after_a14 { s with acceptor := .accepting }
      ((answer_unfired fd (formatErr (ascii "server busy"))).a14Of s.os)
  · cases h

theorem step_a14 {a : Act} (h : step cfg a s = some s') :
    a14Of s'.log = a14Of s.log ++ entries (stepFires cfg a s) := by
  unfold step at h
  split at h
  · cases h
  · cases a with
    | work w => exact workerStep_a14 h
    | admission k => exact (threadStep_a14 h).trans (List.append_nil _).symm
    | main => exact (mainStep_a14 h).trans (List.append_nil _).symm
    | tick ns =>
      cases h
      exact (List.append_nil _).symm
    | signal =>
      cases h
      exact (List.append_nil _).symm
    | _ => exact (acceptorStep_a14 h).trans (List.append_nil _).symm

theorem run_a14 {as : List Act} (h : run cfg as s = some s') :
    a14Of s'.log = a14Of s.log ++ entries (runFires cfg as s) := by
  induction as generalizing s with
  | nil =>
    cases h
    exact (List.append_nil _).symm
  | cons a as ih =>
    obtain ⟨t, ht, rest⟩ := Option.bind_eq_some_iff.mp h
    rw [ih rest, step_a14 ht, runFires, ht, entries_append, List.append_assoc]

end Runs

theorem fixed_filename {r r' : Request} (h : r'.fixed = r.fixed) : r'.filename = r.filename :=
  show r'.fixed.filename = r.fixed.filename by rw [h]

/-- A name that a request can have: a word of a header line, without NUL. -/
structure Admissible (c : Bytes) : Prop where
  token : Token c
  unbroken : newline ∉ c
  terminated : 0 ∉ c

structure Named (s : Server) : Prop where
  heap : ∀ {id r}, s.heap id = some r → Admissible r.filename
  admitted : ∀ {fd op filename bytes leftover}, ⟨fd, .numbering op filename bytes leftover⟩ ∈ s.threads → Admissible filename

theorem parseRequestLine_filename {line : Bytes} {r : ParsedRequestLine} (h : RequestLine line r)
    (named : r.type = .get ∨ r.type = .put) : Token r.filename ∧ r.filename ⊆ line := by
  cases h with
  | get _ token =>
    refine ⟨token, fun b hb => ?_⟩
    simp only [List.mem_append]
    exact .inl (.inr hb)
  | put _ _ token =>
    refine ⟨token, fun b hb => ?_⟩
    simp only [List.mem_append]
    exact .inl (.inl (.inl (.inr hb)))
  | health => rcases named with h | h <;> cases h

theorem ruling_admissible {hdr : HeaderReadResult} {op : Op} {filename : Bytes} {bytes : UInt64} {leftover : Bytes}
    (unbroken : hdr.ok = true → newline ∉ hdr.line) (h : ruling hdr = .admitted op filename bytes leftover) :
    Admissible filename := by
  have component := ruling_admitted h
  unfold ruling at h
  split at h
  · rename_i ok
    have parsed : (parseRequestLine hdr.line).filename = filename ∧
        ((parseRequestLine hdr.line).type = .get ∨ (parseRequestLine hdr.line).type = .put) := by
      simp only at h
      split at h
      · cases h
      · cases h
      · rename_i get
        split at h
        · cases h
          exact ⟨rfl, .inl get⟩
        · cases h
      · rename_i put
        split at h
        · split at h
          · cases h
          · cases h
            exact ⟨rfl, .inr put⟩
        · cases h
    obtain ⟨rfl, named⟩ := parsed
    rcases parseRequestLine_cases hdr.line with line | ⟨malformed, -⟩
    · obtain ⟨token, sub⟩ := parseRequestLine_filename line named
      exact ⟨token, fun hb => unbroken ok (sub hb), component.nul⟩
    · rw [malformed] at named
      rcases named with h | h <;> cases h
  · cases h

namespace Named
variable {cfg : Config} {s s' : Server}

theorem start (os : Os) (threads : Nat) : Named (.start os threads) where
  heap h := by cases h
  admitted h := absurd h List.not_mem_nil

theorem updated (h : Named s) {id x : Nat} {r r₁ r' : Request} (hr : s.heap id = some r)
    (hr' : Function.update s.heap id (some r₁) x = some r') (same : r₁.filename = r.filename := by rfl) :
    Admissible r'.filename := by
  by_cases here : x = id
  · rw [here, Function.update_self] at hr'
    cases hr'
    exact same ▸ h.heap hr
  · rw [Function.update_of_ne here] at hr'
    exact h.heap hr'

theorem freed (h : Named s) {id x : Nat} {r' : Request} (hr' : Function.update s.heap id none x = some r') :
    Admissible r'.filename := by
  by_cases here : x = id
  · rw [here, Function.update_self] at hr'
    cases hr'
  · rw [Function.update_of_ne here] at hr'
    exact h.heap hr'

theorem slice (h : Named s) {id x : Nat} {r r' : Request} {o : Round} (hr : s.heap id = some r)
    (ho : o = serveOrReport r.clientFd cfg.sp ⟨r, s.os⟩)
    (hr' : Function.update s.heap id (some o.state.req) x = some r') : Admissible r'.filename := by
  subst ho
  exact h.updated hr hr' (fixed_filename (serveOrReport_apart r.clientFd cfg.sp ⟨r, s.os⟩).fixed)

theorem step (h : Named s) (step : Step cfg s s') : Named s' := by
  cases step with
  | spawn =>
    refine ⟨h.heap, fun ht => ?_⟩
    rcases List.mem_append.mp ht with ht | ht
    · exact h.admitted ht
    · cases List.mem_singleton.mp ht
  | @read k fd' hdr o hk ho hv =>
    refine ⟨h.heap, fun {fd op filename bytes leftover} ht => ?_⟩
    rcases List.mem_or_eq_of_mem_set ht with ht | ht
    · exact h.admitted ht
    · have phase : (ruling hdr).phase = .numbering op filename bytes leftover := (congrArg Thread.phase ht).symm
      cases hruling : ruling hdr with
      | admitted =>
        rw [hruling] at phase
        cases phase
        refine ruling_admissible (fun ok => ?_) hruling
        obtain ⟨hdr', hv', reads⟩ := readHeaderLine_spec fd' kHeaderTimeoutMs s.os
        rw [← ho, hv] at hv'
        cases hv'
        rw [(reads.read ok).2.1]
        exact newline_not_mem_lineOf _
      | _ =>
        rw [hruling] at phase
        cases phase
  | depth hk => exact ⟨h.heap, fun ht => h.admitted (phase_set ht (by simp))⟩
  | answered hk => exact ⟨h.heap, fun ht => h.admitted (phase_set ht (by simp))⟩
  | @number k fd op filename bytes leftover r hk hr =>
    refine ⟨fun {id r'} hr' => ?_, fun ht => h.admitted (phase_set ht (by simp))⟩
    change Function.update s.heap s.nextId (some r) id = some r' at hr'
    by_cases new : id = s.nextId
    · rw [new, Function.update_self] at hr'
      cases hr'
      rw [hr]
      exact h.admitted (List.mem_of_getElem? hk)
    · rw [Function.update_of_ne new] at hr'
      exact h.heap hr'
  | stamp hk hr =>
    refine ⟨fun hr' => h.updated hr hr', fun ht => h.admitted (phase_set ht ?_)⟩
    split <;> simp
  | opened hk hr => exact ⟨fun hr' => h.updated hr hr', fun ht => h.admitted (phase_set ht (by simp))⟩
  | notFound hk hr => exact ⟨h.freed, fun ht => h.admitted (phase_set ht (by simp))⟩
  | enqueue hk => exact ⟨h.heap, fun ht => h.admitted (phase_set ht (by simp))⟩
  | leave hk => exact ⟨h.heap, fun ht => h.admitted (phase_set ht (by simp))⟩
  | next hw hi hq hr => exact ⟨fun hr' => h.updated hr hr', h.admitted⟩
  | preempt hw hr ho => exact ⟨h.slice hr ho, h.admitted⟩
  | serve hw hr ho => exact ⟨h.slice hr ho, h.admitted⟩
  | sliceCrash hw hr ho => exact ⟨h.slice hr ho, h.admitted⟩
  | record hw hr heq => exact ⟨fun hr' => h.updated hr hr' (heq ▸ rfl), h.admitted⟩
  | release hw hr => exact ⟨h.freed, h.admitted⟩
  | _ => exact ⟨h.heap, h.admitted⟩

end Named

theorem getTurn_filename (fd : Int) (sp : SliceParams) (v : GetLocals) (j : Job) :
    (getTurn fd sp v j).state.req.filename = j.req.filename :=
  fixed_filename (getTurn_moves fd sp v j).fixed

theorem loopFires_filename (fd : Int) (sp : SliceParams) {fuel : Nat} {v : GetLocals} {j : Job} :
    ∀ f ∈ loopFires fd sp fuel v j, f.filename = j.req.filename := by
  induction fuel generalizing v j with
  | zero => exact List.forall_mem_nil _
  | succ fuel ih =>
    rw [loopFires, List.forall_mem_append]
    constructor
    · unfold turnFires
      split
      · exact List.forall_mem_nil _
      · exact List.forall_mem_singleton.mpr rfl
    · split
      · intro f hf
        rw [ih f hf, getTurn_filename]
      · exact List.forall_mem_nil _

theorem sliceFires_filename {fd : Int} {sp : SliceParams} {j : Job} :
    ∀ f ∈ sliceFires fd sp j, f.filename = j.req.filename := by
  unfold sliceFires
  cases j.req.op with
  | put => exact List.forall_mem_nil _
  | get =>
    simp only [getFires]
    split
    · intro f hf
      rw [loopFires_filename fd sp f hf]
      exact fixed_filename (sendHeader_moves fd { j with req := { j.req with rounds := j.req.rounds + 1 } }).fixed
    · exact List.forall_mem_nil _

theorem runFires_admissible {cfg : Config} {as : List Act} {s : Server} (named : Named s) :
    ∀ f ∈ runFires cfg as s, Admissible f.filename := by
  induction as generalizing s with
  | nil => exact List.forall_mem_nil _
  | cons a as ih =>
    rw [runFires]
    cases ht : step cfg a s with
    | none => exact List.forall_mem_nil _
    | some t =>
      rw [List.forall_mem_append]
      constructor
      · unfold stepFires
        split
        · split
          · rename_i id _
            cases hr : s.heap id with
            | none => exact List.forall_mem_nil _
            | some r =>
              intro f hf
              rw [sliceFires_filename f hf]
              exact named.heap hr
          · exact List.forall_mem_nil _
        · exact List.forall_mem_nil _
      · exact ih (named.step (step_cases ht).2)

end LinkScheduling
