import LinkScheduling.Worker

/-! What a slice leaves alone, whatever comes of its calls: the fixed fields of its request,
the sockets of the others, and for a GET the files. A GET slice that does not fail has met
no fault. -/

namespace LinkScheduling
open Effect

def Request.fixed (r : Request) : Request :=
  { r with
    rounds := 0, forfeitedBytes := 0, deficit := 0, byteOffset := 0, leftover := []
    tmpPath := [], fileFd := -1, started := false }

/-- Only the socket `fd` has been used, and no descriptor number has been taken back. -/
structure Beyond (fd : Int) (a b : Os) : Prop where
  peer : b.peer = a.peer
  sent : ∀ fd' ≠ fd, b.sent fd' = a.sent fd'
  recvd : ∀ fd' ≠ fd, b.recvd fd' = a.recvd fd'
  nextFd : a.files.nextFd ≤ b.files.nextFd

instance (fd : Int) : Std.Refl (Beyond fd) :=
  ⟨fun _ => ⟨rfl, fun _ _ => rfl, fun _ _ => rfl, Nat.le_refl _⟩⟩

instance (fd : Int) : IsTrans Os (Beyond fd) := ⟨fun _ _ _ h h' =>
  ⟨h'.peer.trans h.peer, fun x hne => (h'.sent x hne).trans (h.sent x hne),
    fun x hne => (h'.recvd x hne).trans (h.recvd x hne), h.nextFd.trans h'.nextFd⟩⟩

/-- The request is still the same one, and only its socket has been used. -/
structure Apart (fd : Int) (j j' : Job) : Prop where
  fixed : j'.req.fixed = j.req.fixed
  os : Beyond fd j.os j'.os

instance (fd : Int) : Std.Refl (Apart fd) := ⟨fun j => ⟨rfl, refl_of (Beyond fd) j.os⟩⟩

instance (fd : Int) : IsTrans Job (Apart fd) := ⟨fun _ _ _ h h' =>
  ⟨h'.fixed.trans h.fixed, trans_of (Beyond fd) h.os h'.os⟩⟩

/-- Some bytes have gone out on the socket `fd`, and nothing else has changed. -/
def SendsSome (fd : Int) (a b : Os) : Prop := ∃ data, Sends fd data a b

instance (fd : Int) : Std.Refl (SendsSome fd) := ⟨fun a => ⟨[], Sends.refl fd a⟩⟩

instance (fd : Int) : IsTrans Os (SendsSome fd) := ⟨fun _ _ _ ⟨d, h⟩ ⟨e, h'⟩ => ⟨d ++ e, h.trans h'⟩⟩

/-- The request still has the same file open, and only the socket `fd` has been used. -/
structure Reading (fd : Int) (j j' : Job) : Prop where
  fixed : j'.req.fixed = j.req.fixed
  fileFd : j'.req.fileFd = j.req.fileFd
  tmpPath : j'.req.tmpPath = j.req.tmpPath
  os : SendsSome fd j.os j'.os

instance (fd : Int) : Std.Refl (Reading fd) := ⟨fun j => ⟨rfl, rfl, rfl, refl_of (SendsSome fd) j.os⟩⟩

instance (fd : Int) : IsTrans Job (Reading fd) := ⟨fun _ _ _ h h' =>
  ⟨h'.fixed.trans h.fixed, h'.fileFd.trans h.fileFd, h'.tmpPath.trans h.tmpPath,
    trans_of (SendsSome fd) h.os h'.os⟩⟩

theorem SendsSome.beyond {fd : Int} {a b : Os} (h : SendsSome fd a b) : Beyond fd a b := by
  obtain ⟨data, sends⟩ := h
  exact ⟨sends.peer, fun _ hne => sends.sent_other hne, fun _ _ => by rw [sends.recvd],
    by rw [sends.files]⟩

theorem Reading.files {fd : Int} {j j' : Job} (h : Reading fd j j') : j'.os.files = j.os.files := by
  obtain ⟨data, sends⟩ := h.os
  exact sends.files

section Moves
variable {α : Type} (fd : Int)

theorem call_moves {f : Verdict → Os → Outcome Fault Os Event α}
    (h : ∀ v, Moves (SendsSome fd) (f v : Sys α)) : Moves (SendsSome fd) (call f) := fun os =>
  trans_of (SendsSome fd) ⟨[], Sends.answered fd os⟩ (h os.verdict os.answered)

theorem alloc_moves : Moves (SendsSome fd) alloc := by
  refine call_moves fd fun v os => ?_
  cases v <;> exact refl_of (SendsSome fd) os

theorem pread_moves (file : Int) (want pos : Nat) : Moves (SendsSome fd) (pread file want pos) := by
  refine call_moves fd fun v os => ?_
  cases v with
  | fail => exact refl_of (SendsSome fd) os
  | grant most =>
    simp only
    cases os.files.contentOf file with
    | none => exact refl_of (SendsSome fd) os
    | some content =>
      simp only
      split <;> exact refl_of (SendsSome fd) os

theorem send_moves (data : Bytes) : Moves (SendsSome fd) (send fd data) := by
  refine call_moves fd fun v os => ?_
  cases v with
  | fail => exact refl_of (SendsSome fd) os
  | grant most => exact ⟨_, rfl, rfl, rfl, rfl⟩

theorem sendAll_moves (data : Bytes) : Moves (SendsSome fd) (sendAll fd data) := by
  refine .bind (.emit _) fun _ => .bind .get fun _ => .loop (fun sent => ?_) _ _
  refine .ite (.bind (send_moves fd _) fun r => ?_) (.pure _)
  split <;> exact .pure _

theorem flush_moves (b : Batch) : Moves (SendsSome fd) (b.flush fd) := .ite (.pure _) (sendAll_moves fd _)

theorem lineLengthAt_moves (file : Int) (offset fileSize : UInt64) :
    Moves (SendsSome fd) (lineLengthAt file offset fileSize) :=
  .loop (fun _ => .ite (.bind (pread_moves fd _ _ _) fun _ => .ite (.pure _) (.ite (.pure _) (.pure _)))
    (.pure _)) _ _

theorem appendRange_moves (file : Int) (offset len : UInt64) (out : Bytes) :
    Moves (SendsSome fd) (appendRange file offset len out) := by
  refine .bind (alloc_moves fd) fun _ => .bind (.loop (fun _ => ?_) _ _) fun r => ?_
  · exact .ite (.bind (pread_moves fd _ _ _) fun _ => .ite (.pure _) (.pure _)) (.pure _)
  · cases r <;> exact .pure _

theorem streamRange_moves (file : Int) (offset len : UInt64) :
    Moves (SendsSome fd) (streamRange file fd offset len) := by
  refine .bind (alloc_moves fd) fun _ => .loop (fun _ => ?_) _ _
  exact .ite (.bind (pread_moves fd _ _ _) fun _ => .ite (.pure _)
    (.bind (sendAll_moves fd _) fun _ => .ite (.pure _) (.pure _))) (.pure _)

theorem onOs_moves {x : Sys α} (h : Moves (SendsSome fd) x) : Moves (Reading fd) (onOs x) := fun j =>
  ⟨rfl, rfl, rfl, h j.os⟩

theorem request_moves : Moves (Reading fd) request := fun j => refl_of (Reading fd) j

theorem setRequest_moves {f : Request → Request} (fixed : ∀ r, (f r).fixed = r.fixed)
    (fileFd : ∀ r, (f r).fileFd = r.fileFd) (tmpPath : ∀ r, (f r).tmpPath = r.tmpPath) :
    Moves (Reading fd) (setRequest f) := fun j =>
  ⟨fixed j.req, fileFd j.req, tmpPath j.req, refl_of (SendsSome fd) j.os⟩

theorem sendHeader_moves : Moves (Reading fd) (sendHeader fd) := by
  refine .bind (request_moves fd) fun r => .ite (.pure _) (.bind (onOs_moves fd (alloc_moves fd)) fun _ => ?_)
  refine .bind (onOs_moves fd (sendAll_moves fd _)) fun _ => .ite (.bind ?_ fun _ => .pure _) (.pure _)
  exact setRequest_moves fd (fun _ => rfl) (fun _ => rfl) fun _ => rfl

variable (sp : SliceParams)

theorem sendLongLine_moves (v : GetLocals) (len : UInt64) : Moves (Reading fd) (sendLongLine fd sp v len) := by
  refine .bind (request_moves fd) fun r => .bind (onOs_moves fd (flush_moves fd _)) fun _ => .ite ?_ (.pure _)
  refine .bind (onOs_moves fd (streamRange_moves fd _ _ _)) fun _ => .ite ?_ (.pure _)
  refine .bind (setRequest_moves fd (fun _ => rfl) (fun _ => rfl) fun _ => rfl) fun _ => ?_
  refine .bind (onOs_moves fd (.bind (alloc_moves fd) fun _ => .emit _)) fun _ => ?_
  exact .bind (request_moves fd) fun _ => .pure _

theorem endRound_moves (v : GetLocals) : Moves (Reading fd) (endRound fd sp v) := by
  refine .bind (onOs_moves fd (flush_moves fd _)) fun _ => .ite (.ite (.bind ?_ fun _ => .pure _)
    (.bind ?_ fun _ => .pure _)) (.pure _)
  · exact setRequest_moves fd (fun _ => rfl) (fun _ => rfl) fun _ => rfl
  · exact setRequest_moves fd (fun _ => rfl) (fun _ => rfl) fun _ => rfl

theorem emitLine_moves (b : Batch) (len : UInt64) : Moves (Reading fd) (emitLine fd sp b len) := by
  refine .bind (request_moves fd) fun r => .ite ?_ ?_
  · refine .bind (onOs_moves fd (flush_moves fd _)) fun _ => .ite ?_ (.pure _)
    exact .bind (onOs_moves fd (streamRange_moves fd _ _ _)) fun _ => .ite (.pure _) (.pure _)
  · refine .bind (onOs_moves fd (appendRange_moves fd _ _ _ _)) fun _ => .ite (.ite ?_ (.pure _)) (.pure _)
    exact .bind (onOs_moves fd (flush_moves fd _)) fun _ => .ite (.pure _) (.pure _)

theorem sendLine_moves (v : GetLocals) (len : UInt64) : Moves (Reading fd) (sendLine fd sp v len) := by
  refine .bind (emitLine_moves fd sp _ _) fun b => ?_
  cases b with
  | none => exact .pure _
  | some b => exact .bind (setRequest_moves fd (fun _ => rfl) (fun _ => rfl) fun _ => rfl) fun _ => .pure _

theorem finishGet_moves (v : GetLocals) : Moves (Reading fd) (finishGet fd v) := by
  refine .bind (onOs_moves fd (flush_moves fd _)) fun _ => .ite (.bind ?_ fun _ => .pure _) (.pure _)
  exact setRequest_moves fd (fun _ => rfl) (fun _ => rfl) fun _ => rfl

theorem getTurn_moves (v : GetLocals) : Moves (Reading fd) (getTurn fd sp v) := by
  refine .bind (request_moves fd) fun r => .ite ?_ (.map (finishGet_moves fd v))
  refine .bind (onOs_moves fd (lineLengthAt_moves fd _ _ _)) fun len => .ite (.pure _) (.ite ?_ (.ite ?_ ?_))
  · exact .map (sendLongLine_moves fd sp v len)
  · exact .map (endRound_moves fd sp v)
  · exact sendLine_moves fd sp v len

theorem serveGet_moves : Moves (Reading fd) (serveGet fd sp) := by
  refine .bind (setRequest_moves fd (fun _ => rfl) (fun _ => rfl) fun _ => rfl) fun _ => ?_
  refine .bind (sendHeader_moves fd) fun _ => .ite (.bind (request_moves fd) fun r => ?_) (.pure _)
  exact .loop (getTurn_moves fd sp) _ _

end Moves

section Reports
variable {α : Type} (fd : Int)

theorem alloc_reports : Reports (fun _ => True) alloc := by
  intro os a h _
  have spec := alloc_spec os
  rcases spec.2 with ⟨-, clean⟩ | ⟨thrown, -⟩
  · exact clean
  · rw [h] at thrown
    cases thrown

theorem pread_reports (file : Int) (want pos : Nat) : Reports (· ≠ []) (pread file want pos) := by
  intro os b h hb
  unfold pread call at h ⊢
  cases hv : os.verdict with
  | fail e =>
    simp only [hv, Except.ok.injEq] at h
    exact absurd h.symm hb
  | grant most =>
    simp only [hv] at h ⊢
    cases os.answered.files.contentOf file with
    | none => simp [Event.faulty]
    | some content =>
      simp only
      split <;> simp [Event.faulty]

theorem sendAll_reports (data : Bytes) : Reports (· = true) (sendAll fd data) := by
  intro os ok h hok
  obtain ⟨ok', h', sentAll⟩ := sendAll_spec fd data os
  rw [h] at h'
  cases h'
  exact sentAll.clean.mp hok

theorem flush_reports (b : Batch) : Reports (· = true) (b.flush fd) := .ite (.pure _) (sendAll_reports fd _)

theorem lineLengthAt_reports (file : Int) (offset fileSize : UInt64) :
    Reports (· ≠ 0) (lineLengthAt file offset fileSize) := by
  refine .loop (fun pos => .ite ((pread_reports file _ _).bind (fun b hb => ?_) fun b hb => ?_) (.pure _)) _ _
  · exact .ite (.pure _) (.ite (.pure _) (.pure _))
  · rw [if_pos (not_not.mp hb)]
    exact .pure (by simp)

theorem appendRange_reports (file : Int) (offset len : UInt64) (out : Bytes) :
    Reports (fun x => x.1 = true) (appendRange file offset len out) := by
  refine .seq alloc_reports fun _ =>
    Reports.bind (show Reports (fun x : Option Bytes => x.isSome = true) _ from .loop (fun got => ?_) _ _) ?_ ?_
  · refine .ite ((pread_reports file _ _).bind (fun b hb => ?_) fun b hb => ?_) (.pure _)
    · exact .ite (.pure _) (.pure _)
    · rw [if_pos (not_not.mp hb)]
      exact .pure (by simp)
  · intro x _
    cases x <;> exact .pure _
  · intro x hx
    cases x with
    | none => exact .pure (by simp)
    | some got => simp at hx

theorem streamRange_reports (file : Int) (offset len : UInt64) :
    Reports (· = true) (streamRange file fd offset len) := by
  refine .seq alloc_reports fun _ => .loop (fun done => ?_) _ _
  refine .ite ((pread_reports file _ _).bind (fun b hb => ?_) fun b hb => ?_) (.pure _)
  · rw [if_neg hb]
    refine (sendAll_reports fd b).bind (fun ok hok => .ite (.pure _) (.pure _)) fun ok hok => ?_
    rw [if_neg hok]
    exact .pure (by simp)
  · rw [if_pos (not_not.mp hb)]
    exact .pure (by simp)

theorem onOs_reports {good : α → Prop} {x : Sys α} (h : Reports good x) : Reports good (onOs x) :=
  fun j a => h j.os a

theorem sendHeader_reports : Reports (· = true) (sendHeader fd) := by
  refine .seq (.quiet fun _ => rfl) fun r => .ite (.pure _) (.seq (onOs_reports alloc_reports) fun _ => ?_)
  refine (onOs_reports (sendAll_reports fd _)).bind (fun ok _ => ?_) fun ok hok => ?_
  · exact .ite (.seq (.quiet fun _ => rfl) fun _ => .pure _) (.pure _)
  · rw [if_neg hok]
    exact .pure (by simp)

variable (sp : SliceParams)

theorem sendLongLine_reports (v : GetLocals) (len : UInt64) :
    Reports (· ≠ .failed) (sendLongLine fd sp v len) := by
  refine .seq (.quiet fun _ => rfl) fun r => ?_
  refine (onOs_reports (flush_reports fd _)).bind (fun ok hok => ?_) fun ok hok => ?_
  · rw [if_pos hok]
    refine (onOs_reports (streamRange_reports fd _ _ _)).bind (fun ok hok => ?_) fun ok hok => ?_
    · rw [if_pos hok]
      refine .seq (.quiet fun _ => rfl) fun _ => .seq (onOs_reports ?_) fun _ =>
        .seq (.quiet fun _ => rfl) fun _ => .pure _
      exact .seq alloc_reports fun _ os _ _ _ => by simp [Prog.emit, Event.faulty]
    · rw [if_neg hok]
      exact .pure (by simp)
  · rw [if_neg hok]
    exact .pure (by simp)

theorem endRound_reports (v : GetLocals) : Reports (· ≠ .failed) (endRound fd sp v) := by
  refine (onOs_reports (flush_reports fd _)).bind (fun ok hok => ?_) fun ok hok => ?_
  · rw [if_pos hok]
    exact .ite (.seq (.quiet fun _ => rfl) fun _ => .pure _) (.seq (.quiet fun _ => rfl) fun _ => .pure _)
  · rw [if_neg hok]
    exact .pure (by simp)

theorem emitLine_reports (b : Batch) (len : UInt64) : Reports (· ≠ none) (emitLine fd sp b len) := by
  have flushed : ∀ b' : Batch, Reports (· ≠ none) (do
      if ← onOs (b'.flush fd) then pure (some ({} : Batch)) else pure none : Slice (Option Batch)) := by
    intro b'
    refine (onOs_reports (flush_reports fd b')).bind (fun ok _ => .ite (.pure _) (.pure _)) fun ok hok => ?_
    rw [if_neg hok]
    exact .pure (by simp)
  refine .seq (.quiet fun _ => rfl) fun r => .ite ?_ ?_
  · refine (onOs_reports (flush_reports fd b)).bind (fun ok hok => ?_) fun ok hok => ?_
    · rw [if_pos hok]
      refine (onOs_reports (streamRange_reports fd _ _ _)).bind (fun ok _ => .ite (.pure _) (.pure _))
        fun ok hok => ?_
      rw [if_neg hok]
      exact .pure (by simp)
    · rw [if_neg hok]
      exact .pure (by simp)
  · refine (onOs_reports (appendRange_reports _ _ _ _)).bind ?_ ?_
    · rintro ⟨ok, data⟩ hok
      simp only at hok
      simp only [if_pos hok]
      exact .ite (flushed _) (.pure _)
    · rintro ⟨ok, data⟩ hok
      simp only at hok
      simp only [if_neg hok]
      exact .pure (by simp)

/-- The good values of a turn: the loop goes on, or it ends well. -/
abbrev Unfailed (x : GetLocals ⊕ SliceResult) : Prop := ∀ res, x = .inr res → res ≠ .failed

theorem sendLine_reports (v : GetLocals) (len : UInt64) : Reports Unfailed (sendLine fd sp v len) := by
  refine (emitLine_reports fd sp _ _).bind (fun b hb => ?_) fun b hb => ?_
  · cases b with
    | none => exact absurd rfl hb
    | some b => exact .seq (.quiet fun _ => rfl) fun _ => .pure _
  · cases b with
    | none => exact .pure (by simp [Unfailed])
    | some b => exact absurd (by simp) hb

theorem finishGet_reports (v : GetLocals) : Reports (· ≠ .failed) (finishGet fd v) := by
  refine (onOs_reports (flush_reports fd _)).bind (fun ok hok => ?_) fun ok hok => ?_
  · rw [if_pos hok]
    exact .seq (.quiet fun _ => rfl) fun _ => .pure _
  · rw [if_neg hok]
    exact .pure (by simp)

theorem getTurn_reports (v : GetLocals) : Reports Unfailed (getTurn fd sp v) := by
  have ended : ∀ x : Slice SliceResult, Reports (· ≠ .failed) x → Reports Unfailed (.inr <$> x) := by
    intro x hx
    refine .map fun s res hres good => hx s res hres (good res rfl)
  refine .seq (.quiet fun _ => rfl) fun r => .ite ?_ (ended _ (finishGet_reports fd v))
  refine (onOs_reports (lineLengthAt_reports _ _ _)).bind (fun len hlen => ?_) fun len hlen => ?_
  · rw [if_neg hlen]
    exact .ite (ended _ (sendLongLine_reports fd sp v len))
      (.ite (ended _ (endRound_reports fd sp v)) (sendLine_reports fd sp v len))
  · rw [if_pos (not_not.mp hlen)]
    exact .pure (by simp [Unfailed])

theorem serveGet_reports : Reports (· ≠ .failed) (serveGet fd sp) := by
  refine .seq (.quiet fun _ => rfl) fun _ => (sendHeader_reports fd).bind (fun ok hok => ?_) fun ok hok => ?_
  · rw [if_pos hok]
    exact .seq (.quiet fun _ => rfl) fun r => .loop (fun v => getTurn_reports fd sp v) _ _
  · rw [if_neg hok]
    exact .pure (by simp)

end Reports

section Put
variable {α : Type} (fd : Int)

theorem call_beyond {f : Verdict → Os → Outcome Fault Os Event α}
    (h : ∀ v, Moves (Beyond fd) (f v : Sys α)) : Moves (Beyond fd) (call f) := fun os =>
  trans_of (Beyond fd) (SendsSome.beyond ⟨[], Sends.answered fd os⟩) (h os.verdict os.answered)

theorem SendsSome.moves {x : Sys α} (h : Moves (SendsSome fd) x) : Moves (Beyond fd) x :=
  fun os => (h os).beyond

theorem sendAll_beyond (data : Bytes) : Moves (Beyond fd) (sendAll fd data) :=
  SendsSome.moves fd (sendAll_moves fd data)

theorem alloc_beyond : Moves (Beyond fd) alloc := SendsSome.moves fd (alloc_moves fd)

theorem sendError_beyond (reason : Bytes) : Moves (Beyond fd) (sendError fd reason) :=
  .bind (alloc_beyond fd) fun _ => .bind (sendAll_beyond fd _) fun _ => .pure _

theorem openTrunc_beyond (p : Path) : Moves (Beyond fd) (openTrunc p) := by
  refine call_beyond fd fun v os => ?_
  cases v with
  | fail => exact refl_of (Beyond fd) os
  | grant => exact ⟨rfl, fun _ _ => rfl, fun _ _ => rfl, Nat.le_succ _⟩

theorem write_beyond (file : Int) (data : Bytes) : Moves (Beyond fd) (write file data) := by
  refine call_beyond fd fun v os => ?_
  cases v with
  | fail => exact refl_of (Beyond fd) os
  | grant most =>
    simp only
    split
    · exact refl_of (Beyond fd) os
    · exact ⟨rfl, fun _ _ => rfl, fun _ _ => rfl, Nat.le_refl _⟩

theorem rename_beyond (src dst : Path) : Moves (Beyond fd) (rename src dst) := by
  refine call_beyond fd fun v os => ?_
  cases v with
  | fail => exact refl_of (Beyond fd) os
  | grant most =>
    simp only
    split
    · exact refl_of (Beyond fd) os
    · exact ⟨rfl, fun _ _ => rfl, fun _ _ => rfl, Nat.le_refl _⟩

theorem unlink_beyond (p : Path) : Moves (Beyond fd) (unlink p) := by
  refine call_beyond fd fun v os => ?_
  cases v with
  | fail => exact refl_of (Beyond fd) os
  | grant most =>
    simp only
    split
    · exact refl_of (Beyond fd) os
    · exact ⟨rfl, fun _ _ => rfl, fun _ _ => rfl, Nat.le_refl _⟩

theorem close_beyond (file : Int) : Moves (Beyond fd) (close file) :=
  fun _ => ⟨rfl, fun _ _ => rfl, fun _ _ => rfl, Nat.le_refl _⟩

theorem recv_beyond (n : Nat) : Moves (Beyond fd) (recv fd n) := fun os =>
  call_beyond fd (f := fun v os' => _) (fun v os' => by
    cases v with
    | fail => exact refl_of (Beyond fd) os'
    | grant most =>
      exact ⟨rfl, fun _ _ => rfl, fun _ hne => Function.update_of_ne hne _ _, Nat.le_refl _⟩) os

theorem armed_beyond (timeoutMs : Int) (deadline : Nat) : Moves (Beyond fd) (armed fd timeoutMs deadline) := by
  refine .ite (fun os => ?_) (.pure _)
  unfold armRemaining
  simp only
  split
  · exact refl_of (Beyond fd) os
  · exact ⟨rfl, fun _ _ => rfl, fun _ _ => rfl, Nat.le_refl _⟩

theorem readExact_beyond (leftover : Bytes) (n : Nat) (timeoutMs : Int) :
    Moves (Beyond fd) (readExact fd leftover n timeoutMs) := by
  refine .bind .get fun os => .bind (.loop (fun out => ?_) _ _) fun _ => .pure _
  refine .ite (.bind (armed_beyond fd _ _) fun _ => .ite (.bind (recv_beyond fd _) fun r => ?_) (.pure _)) (.pure _)
  split <;> exact .pure _

theorem readHeaderLine_beyond (timeoutMs : Int) : Moves (Beyond fd) (readHeaderLine fd timeoutMs) := by
  refine .bind .get fun os => .loop (fun line => ?_) _ _
  refine .bind (armed_beyond fd _ _) fun _ => .ite (.bind (recv_beyond fd _) fun r => ?_) (.pure _)
  split
  · exact .pure _
  · exact .pure _
  · exact .pure _
  · split
    · exact .pure _
    · refine .ite (.bind (.modify fun os => ?_) fun _ => .pure _) (.pure _)
      exact ⟨rfl, fun _ _ => rfl, fun _ _ => rfl, Nat.le_refl _⟩

theorem writeAll_beyond (file : Int) (data : Bytes) : Moves (Beyond fd) (writeAll file data) := by
  refine .bind .get fun os => .loop (fun done => ?_) _ _
  refine .ite (.bind (write_beyond fd file _) fun r => ?_) (.pure _)
  split <;> exact .pure _

theorem onOs_apart {x : Sys α} (h : Moves (Beyond fd) x) : Moves (Apart fd) (onOs x) := fun j => ⟨rfl, h j.os⟩

theorem request_apart : Moves (Apart fd) request := fun j => refl_of (Apart fd) j

theorem setRequest_apart {f : Request → Request} (fixed : ∀ r, (f r).fixed = r.fixed) :
    Moves (Apart fd) (setRequest f) := fun j => ⟨fixed j.req, refl_of (Beyond fd) j.os⟩

theorem report_apart (reason : Bytes) (x : α) :
    Moves (Apart fd) (do onOs (sendError fd reason); pure x : Slice α) :=
  .bind (onOs_apart fd (sendError_beyond fd reason)) fun _ => .pure _

theorem beginPut_apart : Moves (Apart fd) (beginPut fd) := by
  refine .bind (request_apart fd) fun r => .ite (.pure _) (.bind (onOs_apart fd (alloc_beyond fd)) fun _ => ?_)
  refine .bind (setRequest_apart fd fun _ => rfl) fun _ => .bind (onOs_apart fd (openTrunc_beyond fd _)) fun n => ?_
  cases n with
  | none => exact .bind (setRequest_apart fd fun _ => rfl) fun _ => report_apart fd _ _
  | some n =>
    refine .bind (setRequest_apart fd fun _ => rfl) fun _ => .bind (onOs_apart fd (alloc_beyond fd)) fun _ => ?_
    refine .bind (onOs_apart fd (sendAll_beyond fd _)) fun _ => .ite (.bind ?_ fun _ => .pure _) (.pure _)
    exact setRequest_apart fd fun _ => rfl

theorem putTurn_apart (take size done : UInt64) : Moves (Apart fd) (putTurn fd take size done) := by
  refine .ite (.bind (request_apart fd) fun r => .bind (onOs_apart fd (readExact_beyond fd _ _ _)) fun x => ?_) (.pure _)
  refine .bind (setRequest_apart fd fun _ => rfl) fun _ => .ite ?_ (report_apart fd _ _)
  refine .bind (onOs_apart fd (writeAll_beyond fd _ _)) fun _ => .ite ?_ (report_apart fd _ _)
  exact .bind (setRequest_apart fd fun _ => rfl) fun _ => .pure _

theorem installPut_apart : Moves (Apart fd) (installPut fd) := by
  refine .bind (request_apart fd) fun r => .bind (onOs_apart fd (close_beyond fd _)) fun _ => ?_
  refine .bind (setRequest_apart fd fun _ => rfl) fun _ => .bind (onOs_apart fd (rename_beyond fd _ _)) fun _ => ?_
  refine .ite (.bind (setRequest_apart fd fun _ => rfl) fun _ => ?_) (report_apart fd _ _)
  refine .bind (onOs_apart fd (alloc_beyond fd)) fun _ => .bind (onOs_apart fd (sendAll_beyond fd _)) fun _ => ?_
  exact .ite (.pure _) (.pure _)

theorem servePut_apart (sp : SliceParams) : Moves (Apart fd) (servePut fd sp) := by
  refine .bind (setRequest_apart fd fun _ => rfl) fun _ => .bind (beginPut_apart fd) fun _ => .ite ?_ (.pure _)
  refine .bind (request_apart fd) fun r => .bind (onOs_apart fd (alloc_beyond fd)) fun _ => ?_
  refine .bind (.loop (putTurn_apart fd _ _) _ _) fun _ => .ite ?_ (.pure _)
  exact .bind (request_apart fd) fun r => .ite (.pure _) (installPut_apart fd)

end Put

theorem serveSlice_apart (fd : Int) (sp : SliceParams) : Moves (Apart fd) (serveSlice fd sp) := by
  refine .bind (request_apart fd) fun r => ?_
  cases r.op with
  | get => exact fun j => ⟨(serveGet_moves fd sp j).fixed, (serveGet_moves fd sp j).os.beyond⟩
  | put => exact servePut_apart fd sp

theorem serveOrReport_apart (fd : Int) (sp : SliceParams) : Moves (Apart fd) (serveOrReport fd sp) := by
  refine .rescue (serveSlice_apart fd sp) fun e => ?_
  cases e with
  | thrown => exact report_apart fd _ _
  | spent => exact .stop _

theorem releaseRequest_apart (fd : Int) : Moves (Apart fd) releaseRequest := by
  refine .bind (request_apart fd) fun r => .ite ?_ ?_
  · refine .bind (onOs_apart fd (close_beyond fd _)) fun _ => .bind (setRequest_apart fd fun _ => rfl) fun _ => ?_
    exact .ite (.bind (onOs_apart fd (unlink_beyond fd _)) fun _ => setRequest_apart fd fun _ => rfl) (.pure _)
  · exact .ite (.bind (onOs_apart fd (unlink_beyond fd _)) fun _ => setRequest_apart fd fun _ => rfl) (.pure _)

theorem finalise_apart (fd : Int) : Moves (Apart fd) finalise :=
  .bind (releaseRequest_apart fd) fun _ => .bind (request_apart fd) fun _ =>
    onOs_apart fd (close_beyond fd _)

end LinkScheduling
