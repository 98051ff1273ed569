import LinkScheduling.PutRuns

/-! The worker's part in a request, after the loop of `server_worker_loop`: a slice whose
exceptions are answered, the accounts, and the release of a request that is not preempted.
However the calls of an upload fail, its finalised request has either left the destination
alone or installed all of the body. -/

namespace LinkScheduling
open Effect

/-- Serve a slice. An exception is answered and counts as a failure; one that is thrown while
it is answered leaves the worker and ends the server. -/
def serveOrReport (fd : Int) (sp : SliceParams) : Slice SliceResult :=
  Prog.rescue (serveSlice fd sp) fun e =>
    match e with
    | .thrown => do
      onOs (sendError fd (ascii "internal error"))
      pure .failed
    | .spent => Prog.stop .spent

def finalise : Slice Unit := do
  releaseRequest
  let r ← request
  onOs (close r.clientFd)

/-- The rows of the metrics file and the counters that the server reports at its end. -/
structure Accounts where
  rows : List Request := []
  requestsServed : Nat := 0
  bytesServed : UInt64 := 0

def Accounts.record (a : Accounts) (res : SliceResult) (r : Request) : Accounts :=
  if res = .done then
    { rows := a.rows ++ [r], requestsServed := a.requestsServed + 1, bytesServed := a.bytesServed + r.bytes }
  else a

section Report
variable {fd : Int} {sp : SliceParams} {stored out : Bytes} {j j' j'' : Job}
  {v v' : Except Fault SliceResult} {l l' : List Event}

theorem PutEnd.value (h : PutEnd fd sp stored j v j' l) :
    v = .ok .done ∨ v = .ok .failed ∨ v = .error .thrown := by
  cases h with
  | refused hv => exact .inr hv
  | kept hv => exact .inr hv
  | installed _ _ landed =>
    rcases landed.result with ⟨hv, -⟩ | ⟨hv, -⟩
    · exact .inl hv
    · exact .inr hv

theorem Landed.reported {tmp : Path} {t : Int} {i : Nat} {body : Bytes} {a : Files}
    (h : Landed fd tmp t i body a j (.error .thrown) j' l) (answered : Answered fd out j' j'' l')
    (hv : v' = .ok .failed ∨ v' = .error .thrown) : Landed fd tmp t i body a j v' j'' (l ++ l') := by
  have final : v' ≠ .ok .done := by rcases hv with rfl | rfl <;> simp
  obtain ⟨out', talks, -⟩ := h.talks
  have faulty : ¬ Clean l := by
    rcases h.result with ⟨h, -⟩ | ⟨-, faulty⟩
    · cases h
    · exact faulty
  refine ⟨answered.files ▸ h.files, ⟨_, talks.trans answered.talks, fun h => absurd h final⟩,
    answered.req.trans h.req, .inr ⟨hv, by simp [faulty]⟩, ?_⟩
  rw [fileLog_append, h.log, answered.fileLog]
  rfl

theorem PutEnd.reported (h : PutEnd fd sp stored j (.error .thrown) j' l)
    (answered : Answered fd out j' j'' l') (hv : v' = .ok .failed ∨ v' = .error .thrown) :
    PutEnd fd sp stored j v' j'' (l ++ l') := by
  have log : fileLog (l ++ l') = fileLog l := by rw [fileLog_append, answered.fileLog, List.append_nil]
  cases h with
  | refused _ hstored fresh files tmpPath fileFd hlog faulty =>
    exact .refused hv hstored fresh (answered.files.trans files) (by rw [answered.req, tmpPath])
      (by rwa [answered.req]) (by rwa [log]) (by simp [faulty])
  | kept _ held tmpPath renames short =>
    refine .kept hv (by rwa [answered.files, answered.req]) (by rw [answered.req, tmpPath]) ?_ ?_
    · rw [← renamesOf_fileLog, log, renamesOf_fileLog, renames]
    · exact fun clean => short ((clean_append _ _).mp clean).1
  | installed took finished landed hl =>
    exact .installed took finished (landed.reported answered hv) (by rw [hl, List.append_assoc])

theorem PutStep.reported (h : PutStep fd sp stored j (.error .thrown) j' l)
    (answered : Answered fd out j' j'' l') (hv : v' = .ok .failed ∨ v' = .error .thrown) :
    PutStep fd sp stored j v' j'' (l ++ l') := by
  cases h with
  | preempted value => cases value
  | ended _ ended =>
    refine .ended ?_ (ended.reported answered hv)
    rcases hv with rfl | rfl <;> simp

theorem serveOrReport_put (stored : Bytes) (j : Job) (hop : j.req.op = .put)
    (ready : PutReady stored j) : wp (serveOrReport fd sp) j (PutStep fd sp stored j) := by
  rw [serveOrReport, wp_rescue]
  refine wp_mono (servePut_step stored j hop ready) ?_
  rintro (e | res) j' l step
  · cases e with
    | thrown =>
      refine wp_mono (report_spec fd (ascii "internal error") SliceResult.failed j') ?_
      rintro v j'' l' ⟨hv, out, -, answered⟩
      exact step.reported answered hv
    | spent =>
      cases step with
      | preempted value => cases value
      | ended _ ended => simpa using ended.value
  · exact step

end Report

structure Released (j j' : Job) (l : List Event) : Prop where
  data : j'.os.files.data = j.os.files.data
  names : Clean l → j'.os.files.names =
    if j.req.tmpPath = [] then j.os.files.names
    else Function.update j.os.files.names j.req.tmpPath none

theorem unlink_spec (p : Path) (os : Os) : wp (unlink p) os fun v os' l => (∃ ok, v = .ok ok) ∧
    os'.files.data = os.files.data ∧
      (Clean l → os'.files.names = Function.update os.files.names p none) := by
  rw [unlink, wp_call]
  cases os.verdict with
  | fail e => exact ⟨⟨_, rfl⟩, rfl, by simp [Event.faulty]⟩
  | grant most =>
    simp only [wp, Os.answered_files]
    cases h : os.files.names p with
    | none =>
      have same : Function.update os.files.names p none = os.files.names := by
        rw [← h, Function.update_eq_self]
      exact ⟨⟨_, rfl⟩, rfl, fun _ => same.symm⟩
    | some i => exact ⟨⟨_, rfl⟩, rfl, fun _ => rfl⟩

theorem unlinkTemp_spec (j : Job) (p : Path) : wp (do
      if p ≠ [] then
        let _ ← onOs (unlink p)
        setRequest fun r => { r with tmpPath := [] }
      : Slice Unit) j fun v j' l => v = .ok () ∧ j'.os.files.data = j.os.files.data ∧
        (Clean l → j'.os.files.names =
          if p = [] then j.os.files.names else Function.update j.os.files.names p none) := by
  by_cases hp : p = []
  · rw [if_neg (not_not.mpr hp), if_pos hp]
    exact ⟨rfl, rfl, fun _ => rfl⟩
  · rw [if_pos hp, if_neg hp]
    refine wp_seq (onOs_spec (unlink_spec p j.os)) ?_ ?_
    · rintro ok j' l ⟨-, -, data, names⟩
      exact ⟨rfl, data, fun clean => names ((clean_append _ _).mp clean).1⟩
    · rintro e j' l ⟨-, ⟨ok, h⟩, -⟩
      cases h

theorem releaseRequest_spec (j : Job) :
    wp releaseRequest j fun v j' l => v = .ok () ∧ Released j j' l := by
  rw [releaseRequest, wp_request_bind]
  by_cases hfd : j.req.fileFd ≥ 0
  · simp only [if_pos hfd]
    rw [wp_close_bind, wp_setRequest_bind]
    refine wp_mono (unlinkTemp_spec _ j.req.tmpPath) ?_
    rintro v j' l ⟨hv, data, names⟩
    exact ⟨hv, data, fun clean => names ((clean_cons _ _).mp clean).2⟩
  · simp only [if_neg hfd]
    refine wp_mono (unlinkTemp_spec j j.req.tmpPath) ?_
    rintro v j' l ⟨hv, data, names⟩
    exact ⟨hv, data, names⟩

theorem finalise_spec (j : Job) : wp finalise j fun v j' l => v = .ok () ∧ Released j j' l := by
  refine wp_seq (releaseRequest_spec j) ?_ ?_
  · rintro ⟨⟩ j' l ⟨-, released⟩
    exact ⟨rfl, released.data, fun clean => released.names ((clean_append _ _).mp clean).1⟩
  · rintro e j' l ⟨h, -⟩
    cases h

theorem Released.others {j j' : Job} {l : List Event} (h : Released j j' l) (clean : Clean l) {p : Path}
    (hp : j.req.tmpPath = [] ∨ p ≠ j.req.tmpPath) :
    j'.os.files.names p = j.os.files.names p ∧ j'.os.files.content? p = j.os.files.content? p := by
  have names : j'.os.files.names p = j.os.files.names p := by
    rw [h.names clean]
    by_cases none : j.req.tmpPath = []
    · rw [if_pos none]
    · rw [if_neg none, Function.update_of_ne (hp.resolve_left none)]
  exact ⟨names, by rw [Files.content?, Files.content?, names, h.data]⟩

/-- What a request has received since the job `j`, behind what came with its header line. -/
def received (fd : Int) (j j' : Job) : Bytes :=
  j.req.leftover ++ (j'.os.recvd fd).drop (j.os.recvd fd).length

def writtenOf (l : List Event) : Bytes := (l.map fun
  | .wrote _ data => data
  | _ => []).flatten

@[simp] theorem writtenOf_append (l l' : List Event) :
    writtenOf (l ++ l') = writtenOf l ++ writtenOf l' := by
  simp [writtenOf]

theorem writtenOf_fileLog (l : List Event) : writtenOf (fileLog l) = writtenOf l := by
  induction l with
  | nil => rfl
  | cons e l ih =>
    have step : fileLog (e :: l) = fileLog [e] ++ fileLog l := fileLog_append [e] l
    have here : writtenOf (fileLog [e]) = writtenOf [e] := by cases e <;> rfl
    rw [step, writtenOf_append, here, ih, ← writtenOf_append]
    rfl

theorem Writing.written {t : Int} {data : Bytes} {l : List Event} (h : Writing t data l) :
    writtenOf l = data := by
  induction h with
  | nil => rfl
  | wrote _ ih => rw [writtenOf_append, ih]; simp [writtenOf]
  | interrupted _ ih => rw [writtenOf_append, ih]; simp [writtenOf]

theorem Writing.entries {t : Int} {data : Bytes} {l : List Event} (h : Writing t data l) {e : Event}
    (he : e ∈ l) : (∃ part, e = .wrote t part) ∨ e = .writeFailed t .intr := by
  induction h with
  | nil => simp at he
  | @wrote _ part _ _ ih =>
    rw [List.mem_append, List.mem_singleton] at he
    exact he.elim ih fun h => .inl ⟨part, h⟩
  | interrupted _ ih =>
    rw [List.mem_append, List.mem_singleton] at he
    exact he.elim ih .inr

/-- All declared bytes have arrived and been written, and the rename has succeeded. -/
structure Completed (fd : Int) (j j' : Job) (log : List Event) : Prop where
  arrived : j.req.bytes.toNat ≤ (received fd j j').length
  written : writtenOf log = (received fd j j').take j.req.bytes.toNat
  renamed : .renamed (tempPath j.req) j.req.path ∈ log

structure Spared (j j' : Job) (log : List Event) : Prop where
  others : ∀ p ≠ tempPath j.req, j'.os.files.names p = j.os.files.names p ∧
    j'.os.files.content? p = j.os.files.content? p
  temp : j'.req.tmpPath = tempPath j.req ∨
    j'.req.tmpPath = [] ∧ j'.os.files = j.os.files ∧ ∀ t, .opened (tempPath j.req) t ∉ log
  renames : renamesOf log = []

structure Replaced (fd : Int) (j : Job) (body : Bytes) (j' : Job) (log : List Event) : Prop where
  files : ∃ t i, Installed (tempPath j.req) j.req.path t i body j.os.files j'.os.files ∧
    j.os.files.names j.req.path ≠ some i
  whole : body.length = j.req.bytes.toNat
  received : body <+: received fd j j'
  declared : body <+: j.req.leftover ++ stream fd j
  log : ∃ t ws, Writing t body ws ∧
    fileLog log = .opened (tempPath j.req) t :: ws ++ [.renamed (tempPath j.req) j.req.path]
  tmpPath : j'.req.tmpPath = []

theorem Held.apart {tmp p : Path} {t : Int} {i : Nat} {stored : Bytes} {a b : Files}
    (h : Held tmp t i stored a b) (hne : p ≠ tmp) : a.names p ≠ some i := by
  intro hp
  have here : b.names p = some i := by rw [h.names, Function.update_of_ne hne, hp]
  exact hne (b.names_inj here (by rw [h.names]; simp))

section Fate
variable {fd : Int} {sp : SliceParams} {j₀ j j' : Job} {log l : List Event} {stored : Bytes}
  {v : Except Fault SliceResult}

theorem Uploading.refused (h : Uploading fd j₀ log stored j) (fresh : j.req.started = false)
    (files : j'.os.files = j.os.files) (tmpPath : j'.req.tmpPath = [])
    (hlog : ∀ e ∈ fileLog l, e = .openFailed (LinkScheduling.tempPath j.req)) :
    Spared j₀ j' (log ++ l) := by
  rcases h.files with ⟨-, -, same, none⟩ | ⟨started, -⟩
  · have entries : ∀ e ∈ fileLog (log ++ l), e = .openFailed (LinkScheduling.tempPath j.req) := by
      rwa [fileLog_append, none]
    refine ⟨fun p _ => by rw [files, same]; exact ⟨rfl, rfl⟩, .inr ⟨tmpPath, files.trans same, ?_⟩, ?_⟩
    · intro t ht
      have impossible := entries _ (List.mem_filter.mpr ⟨ht, rfl⟩)
      simp at impossible
    · rw [← renamesOf_fileLog]
      refine List.filterMap_eq_nil_iff.mpr fun e he => ?_
      rw [entries e he]
  · rw [fresh] at started
    cases started

theorem Uploading.kept (h : Uploading fd j₀ log stored j) {t : Int} {i : Nat} {data : Bytes}
    (held : Held (LinkScheduling.tempPath j.req) t i data j.os.files j'.os.files ∨
      Closed (LinkScheduling.tempPath j.req) t i data j.os.files j'.os.files)
    (tmpPath : j'.req.tmpPath = LinkScheduling.tempPath j.req) (renames : renamesOf l = []) :
    Spared j₀ j' (log ++ l) := by
  rw [h.tempPath] at held tmpPath
  refine ⟨fun p hp => ?_, .inl tmpPath, by rw [renamesOf_append, h.renames, renames]; rfl⟩
  rcases held with held | held
  · exact ⟨by rw [held.names, Function.update_of_ne hp, h.names hp], (held.content? hp).trans (h.content? hp)⟩
  · exact ⟨by rw [held.names, Function.update_of_ne hp, h.names hp], (held.content? hp).trans (h.content? hp)⟩

theorem Uploading.replaced (h : Uploading fd j₀ log stored j) {t : Int} {i : Nat} {part got : Bytes}
    {j₁ : Job} {l₁ l₂ : List Event} (took : Took fd sp t i stored j part got j₁ l₁)
    (finished : ¬ j₁.req.byteOffset < j₁.req.bytes)
    (landed : Landed fd (LinkScheduling.tempPath j.req) t i (stored ++ part) j.os.files j₁ v j' l₂) :
    Replaced fd j₀ (stored ++ part) j' (log ++ (l₁ ++ l₂)) := by
  obtain ⟨held, ws, writing, written⟩ := h.held took
  have after := h.step took
  obtain ⟨got', hgot, bytes⟩ := after.received
  obtain ⟨out, talks, -⟩ := landed.talks
  refine ⟨⟨t, i, h.installed took landed.files, held.apart (tempPath_ne j₀.req).symm⟩,
    (took.whole h.place finished).trans (by rw [h.bytes]), ⟨j₁.req.leftover, ?_⟩, ⟨_, after.conserved⟩,
    ⟨t, ws, writing, ?_⟩, by rw [landed.req]⟩
  · rw [LinkScheduling.received, talks.recvd_self, hgot, List.append_nil, List.drop_left, bytes]
  · rw [← List.append_assoc, fileLog_append, written, landed.log, h.tempPath, after.path]

theorem Uploading.fate (h : Uploading fd j₀ log stored j) (ended : PutEnd fd sp stored j v j' l) :
    v ≠ .ok .done ∧ Spared j₀ j' (log ++ l) ∨ ∃ body, Replaced fd j₀ body j' (log ++ l) := by
  have final : v = .ok .failed ∨ v = .error .thrown → v ≠ .ok .done := by
    rintro (rfl | rfl) <;> simp
  cases ended with
  | refused hv _ fresh files tmpPath _ hlog _ =>
    exact .inl ⟨final hv, h.refused fresh files tmpPath hlog⟩
  | kept hv held tmpPath renames _ =>
    exact .inl ⟨final hv, h.kept (held.imp And.left And.left) tmpPath renames⟩
  | installed took finished landed hl =>
    subst hl
    exact .inr ⟨_, h.replaced took finished landed⟩

theorem Spared.not_completed (h : Spared j j' log) : ¬ Completed fd j j' log := by
  intro completed
  have member : (tempPath j.req, j.req.path) ∈ renamesOf log :=
    List.mem_filterMap.mpr ⟨_, completed.renamed, rfl⟩
  rw [h.renames] at member
  cases member

theorem Replaced.body_eq {body : Bytes} (h : Replaced fd j body j' log) :
    body = (LinkScheduling.received fd j j').take j.req.bytes.toNat := by
  obtain ⟨rest, hrest⟩ := h.received
  rw [← hrest, ← h.whole, List.take_left]

theorem Replaced.completed {body : Bytes} (h : Replaced fd j body j' log) : Completed fd j j' log := by
  obtain ⟨t, ws, writing, hlog⟩ := h.log
  refine ⟨h.whole ▸ h.received.length_le, ?_, ?_⟩
  · rw [← h.body_eq, ← writtenOf_fileLog, hlog, writtenOf_append, ← List.singleton_append,
      writtenOf_append, writing.written]
    simp [writtenOf]
  · have member : .renamed (tempPath j.req) j.req.path ∈ fileLog log := by simp [hlog]
    exact (List.mem_filter.mp member).1

theorem Replaced.faultless {body : Bytes} (h : Replaced fd j body j' log) :
    ¬ ((j.req.leftover ++ stream fd j).length < j.req.bytes.toNat ∨
      (∃ t e, e ≠ .intr ∧ .writeFailed t e ∈ log) ∨
      .renameFailed (tempPath j.req) j.req.path ∈ log) := by
  obtain ⟨t, ws, writing, written⟩ := h.log
  have entries : ∀ e ∈ log, e.onFile = true → e = .opened (tempPath j.req) t ∨
      (∃ part, e = .wrote t part) ∨ e = .writeFailed t .intr ∨
      e = .renamed (tempPath j.req) j.req.path := by
    intro e he onFile
    have member : e ∈ fileLog log := List.mem_filter.mpr ⟨he, onFile⟩
    rw [written, List.cons_append, List.mem_cons, List.mem_append, List.mem_singleton] at member
    rcases member with first | middle | last
    · exact .inl first
    · exact .inr ((writing.entries middle).imp_right .inl)
    · exact .inr (.inr (.inr last))
  rintro (short | ⟨t', e, hne, failed⟩ | failed)
  · have within := h.declared.length_le
    rw [h.whole] at within
    omega
  · have entry := entries _ failed rfl
    simp [hne] at entry
  · have entry := entries _ failed rfl
    simp at entry

end Fate

/-- Whatever call fails in whatever round: when the request has been finalised and its temp
file, if it is still there, unlinked, no temp file that it created remains, and the
destination has been replaced by the declared body exactly when all of that has arrived, been
written and been renamed. -/
theorem finalise_put_atomic (fd : Int) (sp : SliceParams) {j : Job} (h : FreshPut j)
    (hq : bounded sp.policy = true → 0 < sp.quantum.toNat) {fuel : Nat}
    (hfuel : j.req.bytes.toNat < fuel) :
    ∃ front last, callRounds (serveOrReport fd sp) fuel j = front ++ [last] ∧
      (last.value = .ok .done ∨ last.value = .ok .failed ∨ last.value = .error .thrown) ∧
      ∀ res fin log, last.value = .ok res → fin = finalise last.state → Clean fin.log →
        log = roundsLog (front ++ [last]) →
        (fin.state.os.files.names (tempPath j.req) = none ∨
          fin.state.os.files.names (tempPath j.req) = j.os.files.names (tempPath j.req) ∧
            ∀ t, .opened (tempPath j.req) t ∉ log) ∧
        (Completed fd j last.state log →
          fin.state.os.files.names j.req.path ≠ j.os.files.names j.req.path ∧
          fin.state.os.files.content? j.req.path =
            some ((received fd j last.state).take j.req.bytes.toNat)) ∧
        (¬ Completed fd j last.state log →
          fin.state.os.files.names j.req.path = j.os.files.names j.req.path ∧
          fin.state.os.files.content? j.req.path = j.os.files.content? j.req.path) ∧
        (∀ a : Accounts, res = .done ∨ (a.record res last.state.req).rows ≠ a.rows →
          Completed fd j last.state log) ∧
        ((j.req.leftover ++ stream fd j).length < j.req.bytes.toNat ∨
            (∃ t e, e ≠ .intr ∧ .writeFailed t e ∈ log) ∨
            .renameFailed (tempPath j.req) j.req.path ∈ log →
          ¬ Completed fd j last.state log) := by
  have run : PutRun fd sp [] j (callRounds (serveOrReport fd sp) fuel j) :=
    callRounds_put serveOrReport_put h.op h.ready (h.uploading fd).place hq (by simpa using hfuel)
  obtain ⟨front, last, stored, j', split, -, -, uploading, ended⟩ :=
    run.ends (fun _ => Uploading fd j) (fun _ _ _ _ _ _ _ _ _ _ uploading took _ => uploading.step took)
      (n := 0) (h.uploading fd)
  refine ⟨front, last, split, ended.value, ?_⟩
  intro res fin log hres hfin clean hlog
  have logged : log = [] ++ roundsLog front ++ last.log := by simp [hlog, roundsLog]
  have released := (finalise_spec last.state).2
  rw [← hfin] at released
  have recorded : ∀ a : Accounts, res = .done ∨ (a.record res last.state.req).rows ≠ a.rows →
      res = .done := by
    rintro a (done | row)
    · exact done
    · by_contra hne
      simp [Accounts.record, hne] at row
  rcases uploading.fate ended with ⟨final, spared⟩ | ⟨body, replaced⟩
  · rw [← logged] at spared
    have incomplete : ¬ Completed fd j last.state log := spared.not_completed
    refine ⟨?_, fun completed => absurd completed incomplete, fun _ => ?_, ?_, fun _ => incomplete⟩
    · rcases spared.temp with temp | ⟨temp, files, unopened⟩
      · rw [released.names clean, temp]
        exact .inl (by simp [tempPath, ascii])
      · exact .inr ⟨by rw [released.names clean, if_pos temp, files], unopened⟩
    · have keep : last.state.req.tmpPath = [] ∨ j.req.path ≠ last.state.req.tmpPath := by
        rcases spared.temp with temp | ⟨temp, -⟩
        · exact .inr (temp ▸ (tempPath_ne j.req).symm)
        · exact .inl temp
      have after := released.others clean keep
      have before := spared.others j.req.path (tempPath_ne j.req).symm
      exact ⟨after.1.trans before.1, after.2.trans before.2⟩
    · intro a done
      rw [recorded a done] at hres
      exact absurd hres final
  · rw [← logged] at replaced
    obtain ⟨t, i, installed, fresh⟩ := replaced.files
    have after := fun p => released.others (p := p) clean (.inl replaced.tmpPath)
    have complete := replaced.completed
    refine ⟨.inl ?_, fun _ => ⟨?_, ?_⟩, fun incomplete => absurd complete incomplete,
      fun _ _ => complete, ?_⟩
    · rw [(after _).1, installed.names, Function.update_of_ne (tempPath_ne j.req)]
      simp
    · rw [(after _).1, installed.names, Function.update_self]
      exact fresh.symm
    · rw [(after _).2, installed.content?_dst, replaced.body_eq]
    · exact fun failure => absurd failure replaced.faultless

/-- A disk that refuses to write what the second round has for it. -/
def fullDisk : List Reply := List.replicate 9 ⟨.grant none, 0⟩ ++ [⟨.fail .other, 0⟩]

theorem finalise_put_atomic_single : ∃ front last,
    callRounds (serveOrReport 7 { policy := .drr, quantum := 2 }) 6
        (singlePut [102] [102] 5 [97] [98, 99, 100, 101, 102] fullDisk) = front ++ [last] ∧
      front.length = 1 ∧ last.value = .ok .failed ∧
      (finalise last.state).state.os.files.names (ascii "f.tmp.1") = none ∧
      (finalise last.state).state.os.files.content? [102] = some [] := by
  obtain ⟨front, last, split, -, settled⟩ := finalise_put_atomic 7 { policy := .drr, quantum := 2 }
    (singlePut_fresh [102] [102] 5 [97] [98, 99, 100, 101, 102] fullDisk) (by decide) (by decide : _ < 6)
  have refused : (callRounds (serveOrReport 7 { policy := .drr, quantum := 2 }) 6
      (singlePut [102] [102] 5 [97] [98, 99, 100, 101, 102] fullDisk)).map
        (fun o => (o.value, decide (Clean (finalise o.state).log),
          decide (.opened (ascii "f.tmp.1") 0 ∈ o.log), decide (.writeFailed 0 .other ∈ o.log))) =
      [(.ok .preempted, true, true, false), (.ok .failed, true, false, true)] := by decide +kernel
  rw [split, List.map_append, List.map_singleton] at refused
  obtain ⟨o, rfl⟩ : ∃ o, front = [o] := by
    have length := congrArg List.length refused
    exact List.length_eq_one_iff.mp (by simpa using length)
  simp only [List.map_cons, List.map_nil, List.cons_append, List.nil_append, List.cons.injEq, Prod.mk.injEq,
    decide_eq_true_eq] at refused
  obtain ⟨⟨-, -, opened, -⟩, ⟨value, clean, -, failed⟩, -⟩ := refused
  have logged : ∀ e, e ∈ o.log ∨ e ∈ last.log → e ∈ roundsLog ([o] ++ [last]) := by
    intro e he
    simpa [roundsLog] using he
  obtain ⟨temp, -, kept, -, incomplete⟩ := settled .failed _ _ value rfl clean rfl
  refine ⟨[o], last, split, rfl, value, ?_, ?_⟩
  · exact temp.resolve_right fun h => h.2 0 (logged _ (.inl opened))
  · exact (kept (incomplete (.inr (.inl ⟨0, .other, by decide, logged _ (.inr failed)⟩)))).2

end LinkScheduling
