import LinkScheduling.Server

/-! The clock and the counter of rounds. No call turns the clock back, and a slice counts itself
once, whatever comes of it. -/

namespace LinkScheduling
open Effect

def Ages (a b : Os) : Prop := a.now ≤ b.now

instance : Std.Refl Ages := ⟨fun _ => Nat.le_refl _⟩

instance : IsTrans Os Ages := ⟨fun _ _ _ h h' => Nat.le_trans h h'⟩

section Calls
variable {α : Type}

theorem Ages.same {a b : Os} (h : b.now = a.now) : Ages a b := Nat.le_of_eq h.symm

theorem call_ages {f : Verdict → Os → Outcome Fault Os Event α} (h : ∀ v os, (f v os).state.now = os.now) :
    Moves Ages (call f) := fun os => by
  change os.now ≤ (f os.verdict os.answered).state.now
  rw [h]
  exact Nat.le_add_right _ _

theorem alloc_ages : Moves Ages alloc := call_ages fun v os => by cases v <;> rfl

theorem pread_ages (file : Int) (want pos : Nat) : Moves Ages (pread file want pos) := by
  refine call_ages fun v os => ?_
  cases v with
  | fail e => rfl
  | grant most =>
    simp only
    split
    · rfl
    · split <;> rfl

theorem send_ages (fd : Int) (data : Bytes) : Moves Ages (send fd data) := call_ages fun v os => by cases v <;> rfl

theorem recv_ages (fd : Int) (n : Nat) : Moves Ages (recv fd n) := fun os =>
  call_ages (f := fun v os' => _) (fun v os' => by cases v <;> rfl) os

theorem write_ages (file : Int) (data : Bytes) : Moves Ages (write file data) := by
  refine call_ages fun v os => ?_
  cases v with
  | fail e => rfl
  | grant most =>
    simp only
    split <;> rfl

theorem openTrunc_ages (p : Path) : Moves Ages (openTrunc p) := call_ages fun v os => by cases v <;> rfl

theorem openRead_ages (p : Path) : Moves Ages (openRead p) := by
  refine call_ages fun v os => ?_
  cases v with
  | fail e => rfl
  | grant most =>
    simp only
    split <;> rfl

theorem fstat_ages (file : Int) : Moves Ages (fstat file) := by
  refine call_ages fun v os => ?_
  cases v with
  | fail e => rfl
  | grant most =>
    simp only
    split <;> rfl

theorem close_ages (file : Int) : Moves Ages (close file) := fun _ => Ages.same rfl

theorem rename_ages (src dst : Path) : Moves Ages (rename src dst) := by
  refine call_ages fun v os => ?_
  cases v with
  | fail e => rfl
  | grant most =>
    simp only
    split <;> rfl

theorem unlink_ages (p : Path) : Moves Ages (unlink p) := by
  refine call_ages fun v os => ?_
  cases v with
  | fail e => rfl
  | grant most =>
    simp only
    split <;> rfl

theorem armed_ages (fd : Int) (timeoutMs : Int) (deadline : Nat) : Moves Ages (armed fd timeoutMs deadline) := by
  refine .ite (fun os => ?_) (.pure _)
  unfold armRemaining
  simp only
  split <;> exact Ages.same rfl

theorem sendAll_ages (fd : Int) (data : Bytes) : Moves Ages (sendAll fd data) := by
  refine .bind (.emit _) fun _ => .bind .get fun _ => .loop (fun sent => ?_) _ _
  refine .ite (.bind (send_ages fd _) fun r => ?_) (.pure _)
  split <;> exact .pure _

theorem sendError_ages (fd : Int) (reason : Bytes) : Moves Ages (sendError fd reason) :=
  .bind alloc_ages fun _ => .bind (sendAll_ages fd _) fun _ => .pure _

theorem readExact_ages (fd : Int) (leftover : Bytes) (n : Nat) (timeoutMs : Int) :
    Moves Ages (readExact fd leftover n timeoutMs) := by
  refine .bind .get fun os => .bind (.loop (fun out => ?_) _ _) fun _ => .pure _
  refine .ite (.bind (armed_ages fd _ _) fun _ => .ite (.bind (recv_ages fd _) fun r => ?_) (.pure _)) (.pure _)
  split <;> exact .pure _

theorem readHeaderLine_ages (fd : Int) (timeoutMs : Int) : Moves Ages (readHeaderLine fd timeoutMs) := by
  refine .bind .get fun os => .loop (fun line => ?_) _ _
  refine .bind (armed_ages fd _ _) fun _ => .ite (.bind (recv_ages fd _) fun r => ?_) (.pure _)
  split
  · exact .pure _
  · exact .pure _
  · exact .pure _
  · split
    · exact .pure _
    · exact .ite (.bind (.modify fun _ => Ages.same rfl) fun _ => .pure _) (.pure _)

theorem writeAll_ages (file : Int) (data : Bytes) : Moves Ages (writeAll file data) := by
  refine .bind .get fun os => .loop (fun done => ?_) _ _
  refine .ite (.bind (write_ages file _) fun r => ?_) (.pure _)
  split <;> exact .pure _

theorem flush_ages (b : Batch) (fd : Int) : Moves Ages (b.flush fd) := .ite (.pure _) (sendAll_ages fd _)

theorem lineLengthAt_ages (file : Int) (offset fileSize : UInt64) : Moves Ages (lineLengthAt file offset fileSize) :=
  .loop (fun _ => .ite (.bind (pread_ages file _ _) fun _ => .ite (.pure _) (.ite (.pure _) (.pure _))) (.pure _)) _ _

theorem appendRange_ages (file : Int) (offset len : UInt64) (out : Bytes) :
    Moves Ages (appendRange file offset len out) := by
  refine .bind alloc_ages fun _ => .bind (.loop (fun _ => ?_) _ _) fun r => ?_
  · exact .ite (.bind (pread_ages file _ _) fun _ => .ite (.pure _) (.pure _)) (.pure _)
  · cases r <;> exact .pure _

theorem streamRange_ages (file fd : Int) (offset len : UInt64) : Moves Ages (streamRange file fd offset len) := by
  refine .bind alloc_ages fun _ => .loop (fun _ => ?_) _ _
  exact .ite (.bind (pread_ages file _ _) fun _ => .ite (.pure _)
    (.bind (sendAll_ages fd _) fun _ => .ite (.pure _) (.pure _))) (.pure _)

theorem openGet_ages (path : Path) : Moves Ages (openGet path) := by
  refine .bind (openRead_ages path) fun n => ?_
  cases n with
  | none => exact .pure _
  | some n =>
    refine .bind (fstat_ages n) fun size => ?_
    cases size with
    | none => exact .bind (close_ages n) fun _ => .pure _
    | some size => exact .pure _

theorem answer_ages (fd : Int) (reply : Bytes) : Moves Ages (answer fd reply) :=
  .bind (sendAll_ages fd reply) fun _ => close_ages fd

end Calls

/-- The counter of rounds is as it was, and the clock has not gone back. -/
structure Later (j j' : Job) : Prop where
  rounds : j'.req.rounds = j.req.rounds
  ages : Ages j.os j'.os

instance : Std.Refl Later := ⟨fun j => ⟨rfl, refl_of Ages j.os⟩⟩

instance : IsTrans Job Later := ⟨fun _ _ _ h h' => ⟨h'.rounds.trans h.rounds, trans_of Ages h.ages h'.ages⟩⟩

section Slices
variable {α : Type} (fd : Int) (sp : SliceParams)

theorem onOs_later {x : Sys α} (h : Moves Ages x) : Moves Later (onOs x) := fun j => ⟨rfl, h j.os⟩

theorem request_later : Moves Later request := fun j => refl_of Later j

theorem setRequest_later {f : Request → Request} (rounds : ∀ r, (f r).rounds = r.rounds) :
    Moves Later (setRequest f) := fun j => ⟨rounds j.req, refl_of Ages j.os⟩

theorem report_later (reason : Bytes) (x : α) : Moves Later (do onOs (sendError fd reason); pure x : Slice α) :=
  .bind (onOs_later (sendError_ages fd reason)) fun _ => .pure _

theorem flush_later (b : Batch) : Moves Later (onOs (b.flush fd)) := onOs_later (flush_ages b fd)

theorem sendHeader_later : Moves Later (sendHeader fd) := by
  refine .bind request_later fun r => .ite (.pure _) (.bind (onOs_later alloc_ages) fun _ => ?_)
  refine .bind (onOs_later (sendAll_ages fd _)) fun _ => .ite (.bind ?_ fun _ => .pure _) (.pure _)
  exact setRequest_later fun _ => rfl

theorem sendLongLine_later (v : GetLocals) (len : UInt64) : Moves Later (sendLongLine fd sp v len) := by
  refine .bind request_later fun r => .bind (flush_later fd _) fun _ => .ite ?_ (.pure _)
  refine .bind (onOs_later (streamRange_ages _ fd _ _)) fun _ => .ite ?_ (.pure _)
  refine .bind (setRequest_later fun _ => rfl) fun _ => .bind (onOs_later (.bind alloc_ages fun _ => .emit _)) fun _ => ?_
  exact .bind request_later fun r => .pure _

theorem endRound_later (v : GetLocals) : Moves Later (endRound fd sp v) := by
  refine .bind (flush_later fd _) fun _ => .ite ?_ (.pure _)
  exact .ite (.bind (setRequest_later fun _ => rfl) fun _ => .pure _)
    (.bind (setRequest_later fun _ => rfl) fun _ => .pure _)

theorem emitLine_later (b : Batch) (len : UInt64) : Moves Later (emitLine fd sp b len) := by
  refine .bind request_later fun r => .ite ?_ ?_
  · refine .bind (flush_later fd _) fun _ => .ite ?_ (.pure _)
    exact .bind (onOs_later (streamRange_ages _ fd _ _)) fun _ => .ite (.pure _) (.pure _)
  · refine .bind (onOs_later (appendRange_ages _ _ _ _)) fun x => .ite (.ite ?_ (.pure _)) (.pure _)
    exact .bind (flush_later fd _) fun _ => .ite (.pure _) (.pure _)

theorem sendLine_later (v : GetLocals) (len : UInt64) : Moves Later (sendLine fd sp v len) := by
  refine .bind (emitLine_later fd sp _ len) fun b => ?_
  cases b with
  | none => exact .pure _
  | some b => exact .bind (setRequest_later fun _ => rfl) fun _ => .pure _

theorem finishGet_later (v : GetLocals) : Moves Later (finishGet fd v) :=
  .bind (flush_later fd _) fun _ => .ite (.bind (setRequest_later fun _ => rfl) fun _ => .pure _) (.pure _)

theorem getTurn_later (v : GetLocals) : Moves Later (getTurn fd sp v) := by
  refine .bind request_later fun r => .ite ?_ (.map (finishGet_later fd v))
  refine .bind (onOs_later (lineLengthAt_ages _ _ _)) fun len => .ite (.pure _) ?_
  refine .ite (.map (sendLongLine_later fd sp v len)) (.ite (.map (endRound_later fd sp v)) ?_)
  exact sendLine_later fd sp v len

theorem beginPut_later : Moves Later (beginPut fd) := by
  refine .bind request_later fun r => .ite (.pure _) (.bind (onOs_later alloc_ages) fun _ => ?_)
  refine .bind (setRequest_later fun _ => rfl) fun _ => .bind (onOs_later (openTrunc_ages _)) fun n => ?_
  cases n with
  | none => exact .bind (setRequest_later fun _ => rfl) fun _ => report_later fd _ _
  | some n =>
    refine .bind (setRequest_later fun _ => rfl) fun _ => .bind (onOs_later alloc_ages) fun _ => ?_
    refine .bind (onOs_later (sendAll_ages fd _)) fun _ => .ite (.bind ?_ fun _ => .pure _) (.pure _)
    exact setRequest_later fun _ => rfl

theorem putTurn_later (take size done : UInt64) : Moves Later (putTurn fd take size done) := by
  refine .ite (.bind request_later fun r => .bind (onOs_later (readExact_ages fd _ _ _)) fun x => ?_) (.pure _)
  refine .bind (setRequest_later fun _ => rfl) fun _ => .ite ?_ (report_later fd _ _)
  refine .bind (onOs_later (writeAll_ages _ _)) fun _ => .ite ?_ (report_later fd _ _)
  exact .bind (setRequest_later fun _ => rfl) fun _ => .pure _

theorem installPut_later : Moves Later (installPut fd) := by
  refine .bind request_later fun r => .bind (onOs_later (close_ages _)) fun _ => ?_
  refine .bind (setRequest_later fun _ => rfl) fun _ => .bind (onOs_later (rename_ages _ _)) fun _ => ?_
  refine .ite (.bind (setRequest_later fun _ => rfl) fun _ => ?_) (report_later fd _ _)
  refine .bind (onOs_later alloc_ages) fun _ => .bind (onOs_later (sendAll_ages fd _)) fun _ => ?_
  exact .ite (.pure _) (.pure _)

structure Counts (j j' : Job) : Prop where
  rounds : j'.req.rounds = j.req.rounds + 1
  ages : Ages j.os j'.os

theorem counted_counts {x : Unit → Slice α} (h : ∀ u, Moves Later (x u)) (j : Job) :
    Counts j (((setRequest fun r => { r with rounds := r.rounds + 1 }) >>= x) j).state := by
  have later := h () ⟨{ j.req with rounds := j.req.rounds + 1 }, j.os⟩
  exact ⟨later.rounds, later.ages⟩

theorem serveSlice_counts (j : Job) : Counts j (serveSlice fd sp j).state := by
  cases h : j.req.op with
  | get =>
    have split : (serveSlice fd sp j).state = (serveGet fd sp j).state := by
      simp only [serveSlice, bind, Prog.bind, request, h]
    rw [split]
    refine counted_counts (fun _ => ?_) j
    refine .bind (sendHeader_later fd) fun _ => .ite (.bind request_later fun r => ?_) (.pure _)
    exact .loop (getTurn_later fd sp) _ _
  | put =>
    have split : (serveSlice fd sp j).state = (servePut fd sp j).state := by
      simp only [serveSlice, bind, Prog.bind, request, h]
    rw [split]
    refine counted_counts (fun _ => ?_) j
    refine .bind (beginPut_later fd) fun _ => .ite (.bind request_later fun r => ?_) (.pure _)
    refine .bind (onOs_later alloc_ages) fun _ => .bind (.loop (putTurn_later fd _ _) _ _) fun _ => .ite ?_ (.pure _)
    exact .bind request_later fun r => .ite (.pure _) (installPut_later fd)

theorem serveOrReport_counts (j : Job) : Counts j (serveOrReport fd sp j).state := by
  have slice := serveSlice_counts fd sp j
  unfold serveOrReport Prog.rescue
  cases (serveSlice fd sp j).value with
  | ok res => exact slice
  | error e =>
    cases e with
    | thrown =>
      have later := report_later fd (ascii "internal error") SliceResult.failed (serveSlice fd sp j).state
      exact ⟨later.rounds.trans slice.rounds, trans_of Ages slice.ages later.ages⟩
    | spent => exact slice

theorem releaseRequest_later : Moves Later releaseRequest := by
  have unlinks : ∀ p : Path, Moves Later (do
      let _ ← onOs (unlink p)
      setRequest fun r => { r with tmpPath := [] } : Slice Unit) := fun p =>
    .bind (onOs_later (unlink_ages p)) fun _ => setRequest_later fun _ => rfl
  refine .bind request_later fun r => .ite ?_ ?_
  · refine .bind (onOs_later (close_ages _)) fun _ => .bind (setRequest_later fun _ => rfl) fun _ => ?_
    exact .ite (unlinks _) (.pure _)
  · exact .ite (unlinks _) (.pure _)

theorem finalise_later : Moves Later finalise :=
  .bind releaseRequest_later fun _ => .bind request_later fun _ => onOs_later (close_ages _)

end Slices

end LinkScheduling
