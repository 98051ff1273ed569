import LinkScheduling.Rounds
import LinkScheduling.PutRound

/-! Uploads from the first round to their end. `PutStep` says what a round of an upload can
do, whether `serve_slice` is called directly or by a worker that catches its exceptions, and
`PutRun` follows the rounds. -/

namespace LinkScheduling
open Effect

structure Landed (fd : Int) (tmp : Path) (t : Int) (i : Nat) (body : Bytes) (a : Files)
    (j : Job) (v : Except Fault SliceResult) (j' : Job) (l : List Event) : Prop where
  files : Installed tmp j.req.path t i body a j'.os.files
  talks : ∃ out, Talks fd [] out j.os j'.os ∧ (v = .ok .done → out = formatOk 0)
  req : j'.req = { j.req with fileFd := -1, tmpPath := [] }
  result : v = .ok .done ∧ Clean l ∨ (v = .ok .failed ∨ v = .error .thrown) ∧ ¬ Clean l
  log : fileLog l = [.renamed tmp j.req.path]

theorem Renamed.landed {fd : Int} {tmp : Path} {t : Int} {i : Nat} {body : Bytes} {a : Files}
    {j : Job} {v : Except Fault SliceResult} {j' : Job} {l : List Event}
    (h : Renamed fd tmp t i body a j v j' l) : Landed fd tmp t i body a j v j' l := by
  obtain ⟨out, -, talks, done⟩ := h.talks
  exact ⟨h.files, ⟨out, talks, done⟩, h.req, h.result, h.log⟩

inductive PutEnd (fd : Int) (sp : SliceParams) (stored : Bytes) (j : Job) (v : Except Fault SliceResult)
    (j' : Job) (l : List Event) : Prop
  | refused : v = .ok .failed ∨ v = .error .thrown → stored = [] → j.req.started = false →
      j'.os.files = j.os.files → j'.req.tmpPath = [] → j'.req.fileFd < 0 →
      (∀ e ∈ fileLog l, e = .openFailed (tempPath j.req)) → ¬ Clean l → PutEnd fd sp stored j v j' l
  | kept {t : Int} {i : Nat} {part : Bytes} : v = .ok .failed ∨ v = .error .thrown →
      (Held (tempPath j.req) t i (stored ++ part) j.os.files j'.os.files ∧ 0 ≤ t ∧ j'.req.fileFd = t ∨
        Closed (tempPath j.req) t i (stored ++ part) j.os.files j'.os.files ∧ j'.req.fileFd < 0) →
      j'.req.tmpPath = tempPath j.req → renamesOf l = [] →
      (Clean l → j.req.leftover.length + (stream fd j).length < (takeOf sp j.req).toNat) →
      PutEnd fd sp stored j v j' l
  | installed {t : Int} {i : Nat} {part got : Bytes} {j₁ : Job} {l₁ l₂ : List Event} :
      Took fd sp t i stored j part got j₁ l₁ → ¬ j₁.req.byteOffset < j₁.req.bytes →
      Landed fd (tempPath j.req) t i (stored ++ part) j.os.files j₁ v j' l₂ → l = l₁ ++ l₂ →
      PutEnd fd sp stored j v j' l

inductive PutStep (fd : Int) (sp : SliceParams) (stored : Bytes) (j : Job) (v : Except Fault SliceResult)
    (j' : Job) (l : List Event) : Prop
  | preempted {t : Int} {i : Nat} {part got : Bytes} : v = .ok .preempted →
      Took fd sp t i stored j part got j' l → j'.req.byteOffset < j'.req.bytes →
      PutStep fd sp stored j v j' l
  | ended : v ≠ .ok .preempted → PutEnd fd sp stored j v j' l → PutStep fd sp stored j v j' l

theorem PutReady.of_fresh {stored : Bytes} {j : Job} (h : PutReady stored j)
    (fresh : j.req.started = false) : j.req.tmpPath = [] ∧ j.req.fileFd < 0 := by
  cases h with
  | fresh _ _ tmpPath fileFd => exact ⟨tmpPath, by rw [fileFd]; decide⟩
  | begun started => simp [fresh] at started

theorem PutRound.step {fd : Int} {sp : SliceParams} {stored : Bytes} {j : Job}
    {v : Except Fault SliceResult} {j' : Job} {l : List Event} (h : PutRound fd sp stored j v j' l) 
    (ready : PutReady stored j) : PutStep fd sp stored j v j' l := by
  have final : v = .ok .failed ∨ v = .error .thrown → v ≠ .ok .preempted := by
    rintro (rfl | rfl) <;> simp
  cases h with
  | refused hv hstored refused =>
    refine .ended (final hv) (.refused hv hstored refused.fresh refused.files ?_ ?_ refused.log
      refused.faulty)
    · rw [refused.req]
      exact (ready.of_fresh refused.fresh).1
    · rw [refused.req]
      exact (ready.of_fresh refused.fresh).2
  | broken hv broken =>
    obtain ⟨t, i, part, held, desc, fileFd⟩ := broken.held
    exact .ended (final hv) (.kept hv (.inl ⟨held, desc, fileFd⟩) broken.tmpPath broken.renames broken.short)
  | preempted took unfinished => exact .preempted rfl took unfinished
  | @unrenamed t i part got _ j₁ _ l₁ l₂ hv took finished unrenamed =>
    have tmpPath : j'.req.tmpPath = tempPath j.req := by rw [unrenamed.req, took.req]
    refine .ended (final hv) (.kept hv (.inr ⟨unrenamed.files, by rw [unrenamed.req]; simp⟩) tmpPath ?_ ?_)
    · rw [renamesOf_append, took.renames, unrenamed.renames]
      rfl
    · simp [unrenamed.faulty]
  | renamed took finished renamed =>
    refine .ended ?_ (.installed took finished renamed.landed rfl)
    rcases renamed.result with ⟨rfl, -⟩ | ⟨hv, -⟩
    · simp
    · exact final hv

structure Placed (stored : Bytes) (r : Request) : Prop where
  offset : r.byteOffset.toNat = stored.length
  within : stored.length ≤ r.bytes.toNat

theorem takeOf_toNat (sp : SliceParams) {stored : Bytes} {r : Request} (h : Placed stored r) :
    (takeOf sp r).toNat = if bounded sp.policy then
      min sp.quantum.toNat (r.bytes.toNat - stored.length) else r.bytes.toNat - stored.length := by
  have offset := h.offset
  have within := h.within
  have remaining : (r.bytes - r.byteOffset).toNat = r.bytes.toNat - stored.length := by
    rw [UInt64.toNat_sub_of_le _ _ (UInt64.le_iff_toNat_le.mpr (by omega)), offset]
  unfold takeOf
  split
  · rw [toNat_min, remaining]
  · exact remaining

section Took
variable {fd : Int} {sp : SliceParams} {t : Int} {i : Nat} {stored part got : Bytes} {j j' : Job}
  {l : List Event}

theorem Took.placed (h : Took fd sp t i stored j part got j' l) (place : Placed stored j.req) :
    Placed (stored ++ part) j'.req := by
  have offset := place.offset
  have within := place.within
  have top := j.req.bytes.toNat_lt
  have length := h.length
  rw [takeOf_toNat sp place] at length
  have bound : part.length ≤ j.req.bytes.toNat - stored.length := by
    split at length <;> omega
  constructor
  · rw [h.req, List.length_append]
    simp only [UInt64.toNat_add, UInt64.toNat_ofNat']
    omega
  · rw [h.req, List.length_append]
    change _ ≤ j.req.bytes.toNat
    omega

theorem Took.ready (h : Took fd sp t i stored j part got j' l) : PutReady (stored ++ part) j' := by
  have same : tempPath j'.req = tempPath j.req := by rw [h.req]; rfl
  have fileFd : j'.req.fileFd = t := by rw [h.req]
  refine .begun (i := i) (by rw [h.req]) (by rw [same, h.req]) (fileFd ▸ h.desc) ?_ ?_ ?_
  · rw [same, h.held.names]
    simp
  · rw [h.held.data]
    simp
  · rw [fileFd, h.held.desc]

theorem Took.quantum (h : Took fd sp t i stored j part got j' l) (place : Placed stored j.req)
    (unfinished : j'.req.byteOffset < j'.req.bytes) :
    bounded sp.policy = true ∧ part.length = sp.quantum.toNat := by
  have length := h.length
  have bytes : j'.req.bytes = j.req.bytes := by rw [h.req]
  have offset := (h.placed place).offset
  rw [UInt64.lt_iff_toNat_lt, offset, bytes, List.length_append] at unfinished
  rw [takeOf_toNat sp place] at length
  have within := place.within
  cases hb : bounded sp.policy with
  | true =>
    rw [hb, if_pos rfl] at length
    exact ⟨rfl, by omega⟩
  | false =>
    rw [hb, if_neg (by simp)] at length
    omega

theorem Took.whole (h : Took fd sp t i stored j part got j' l) (place : Placed stored j.req)
    (finished : ¬ j'.req.byteOffset < j'.req.bytes) : (stored ++ part).length = j.req.bytes.toNat := by
  have bytes : j'.req.bytes = j.req.bytes := by rw [h.req]
  have after := h.placed place
  have within := after.within
  have offset := after.offset
  rw [UInt64.lt_iff_toNat_lt, offset, bytes] at finished
  rw [bytes] at within
  omega

theorem Took.stream (h : Took fd sp t i stored j part got j' l) :
    part ++ (j'.req.leftover ++ stream fd j') = j.req.leftover ++ stream fd j := by
  have next : LinkScheduling.stream fd j' = (LinkScheduling.stream fd j).drop got.length := by
    have greeted : greeting j'.req = [] := by rw [h.req]; rfl
    rw [LinkScheduling.stream, LinkScheduling.stream, h.talks.peer, h.talks.sent_self, h.talks.recvd_self,
      greeted, List.append_nil, List.drop_drop, List.length_append]
  obtain ⟨rest, hrest⟩ := h.arrived
  rw [next, ← List.append_assoc, h.bytes, ← hrest, List.drop_left, List.append_assoc]

end Took

inductive PutRun (fd : Int) (sp : SliceParams) : Bytes → Job → List Round → Prop
  | last {stored : Bytes} {j : Job} {o : Round} : o.value ≠ .ok .preempted →
      PutEnd fd sp stored j o.value o.state o.log → PutRun fd sp stored j [o]
  | more {t : Int} {i : Nat} {stored part got : Bytes} {j : Job} {o : Round} {os : List Round} :
      o.value = .ok .preempted → Took fd sp t i stored j part got o.state o.log →
      o.state.req.byteOffset < o.state.req.bytes → PutRun fd sp (stored ++ part) o.state os →
      PutRun fd sp stored j (o :: os)

theorem callRounds_put {fd : Int} {sp : SliceParams} {x : Slice SliceResult}
    (round : ∀ stored j, j.req.op = .put → PutReady stored j → wp x j (PutStep fd sp stored j))
    {stored : Bytes} {j : Job} (hop : j.req.op = .put) (ready : PutReady stored j)
    (place : Placed stored j.req) (hq : bounded sp.policy = true → 0 < sp.quantum.toNat) {fuel : Nat}
    (enough : j.req.bytes.toNat - stored.length < fuel) :
    PutRun fd sp stored j (callRounds x fuel j) := by
  induction fuel generalizing stored j with
  | zero => omega
  | succ fuel ih =>
    have step := round stored j hop ready
    rcases step with @⟨t, i, part, got, value, took, unfinished⟩ | ⟨value, ended⟩
    · rw [callRounds_preempted fuel value]
      have after := took.placed place
      obtain ⟨hb, length⟩ := took.quantum place unfinished
      have pos := hq hb
      have bytes : (x j).state.req.bytes = j.req.bytes := by rw [took.req]
      have within := after.within
      refine .more value took unfinished (ih (by rw [took.req]; exact hop) took.ready after ?_)
      rw [bytes] at within ⊢
      rw [List.length_append] at within ⊢
      omega
    · rw [callRounds_over fuel value]
      exact .last value ended

theorem tempPath_ne (r : Request) : tempPath r ≠ r.path := by
  intro h
  have := congrArg List.length h
  rw [tempPath, List.length_append, List.length_append] at this
  have suffix : (ascii ".tmp.").length = 5 := rfl
  omega

theorem content?_of_names {a b : Files} {i : Nat} {stored : Bytes} {p q : Path}
    (data : b.data = Function.update a.data i stored) (names : b.names p = a.names p)
    (hi : b.names q = some i) (hne : p ≠ q) : b.content? p = a.content? p := by
  rw [Files.content?, Files.content?, names, data]
  cases hp : a.names p with
  | none => rfl
  | some k =>
    have hk : k ≠ i := by
      rintro rfl
      exact hne (b.names_inj (names.trans hp) hi)
    simp [Function.update_of_ne hk]

section Content
variable {tmp dst p : Path} {t : Int} {i : Nat} {stored : Bytes} {a b : Files}

theorem Held.content? (h : Held tmp t i stored a b) (hne : p ≠ tmp) : b.content? p = a.content? p :=
  content?_of_names h.data (by rw [h.names, Function.update_of_ne hne]) (q := tmp)
    (by rw [h.names]; simp) hne

theorem Closed.content? (h : Closed tmp t i stored a b) (hne : p ≠ tmp) :
    b.content? p = a.content? p :=
  content?_of_names h.data (by rw [h.names, Function.update_of_ne hne]) (q := tmp)
    (by rw [h.names]; simp) hne

theorem Installed.content?_dst (h : Installed tmp dst t i stored a b) : b.content? dst = some stored := by
  rw [Files.content?, h.names, h.data]
  simp

theorem Installed.content?_tmp (h : Installed tmp dst t i stored a b) (hne : tmp ≠ dst) :
    b.content? tmp = none := by
  rw [Files.content?, h.names, Function.update_of_ne hne]
  simp

theorem Installed.content? (h : Installed tmp dst t i stored a b) (hdst : p ≠ dst) (htmp : p ≠ tmp) :
    b.content? p = a.content? p :=
  content?_of_names h.data
    (by rw [h.names, Function.update_of_ne hdst, Function.update_of_ne htmp]) (q := dst)
    (by rw [h.names]; simp) hdst

theorem Held.installed {c : Files} {body : Bytes} (h : Held tmp t i stored a b)
    (h' : Installed tmp dst t i body b c) : Installed tmp dst t i body a c where
  owned := h.owned
  names := by rw [h'.names, h.names, Function.update_idem]
  data := by rw [h'.data, h.data, Function.update_idem]
  descs := by rw [h'.descs, h.descs, Function.update_idem]
  nextIno := h.nextIno.trans h'.nextIno
  nextFd := h.nextFd.trans h'.nextFd

end Content

def roundsLog (rounds : List Round) : List Event := (rounds.map Outcome.log).flatten

/-- What holds at the start of a run, and is kept by every PREEMPTED round, holds where the
last round begins. `P` also speaks about the number of rounds so far and their log. -/
theorem PutRun.ends {fd : Int} {sp : SliceParams} {stored : Bytes} {j : Job} {rounds : List Round}
    (P : Nat → List Event → Bytes → Job → Prop)
    (step : ∀ n log stored j t i part got (o : Round), o ∈ rounds → P n log stored j →
      Took fd sp t i stored j part got o.state o.log → o.state.req.byteOffset < o.state.req.bytes →
        P (n + 1) (log ++ o.log) (stored ++ part) o.state)
    (run : PutRun fd sp stored j rounds) {n : Nat} {log : List Event} (start : P n log stored j) :
    ∃ front last stored' j', rounds = front ++ [last] ∧
      (∀ k o, front[k]? = some o → o.value = .ok .preempted ∧
        o.state.req.byteOffset < o.state.req.bytes ∧
          ∃ log' stored', P (n + k + 1) log' stored' o.state) ∧
      last.value ≠ .ok .preempted ∧ P (n + front.length) (log ++ roundsLog front) stored' j' ∧
        PutEnd fd sp stored' j' last.value last.state last.log := by
  induction run generalizing n log with
  | @last stored j o value ended =>
    exact ⟨[], o, stored, j, rfl, by simp, value, by simpa [roundsLog] using start, ended⟩
  | @more t i stored part got j o os value took unfinished _ ih =>
    have next := step _ _ _ _ _ _ _ _ o List.mem_cons_self start took unfinished
    obtain ⟨front, last, stored', j', rfl, states, final, hlast, ended⟩ :=
      ih (fun n log stored j t i part got o ho => step n log stored j t i part got o
        (List.mem_cons_of_mem _ ho)) next
    refine ⟨o :: front, last, stored', j', rfl, ?_, final, ?_, ended⟩
    · intro k o' ho
      cases k with
      | zero =>
        cases ho
        exact ⟨value, unfinished, _, _, next⟩
      | succ k =>
        obtain ⟨value', unfinished', log', stored'', h⟩ := states k o' (by simpa using ho)
        exact ⟨value', unfinished', log', stored'', by rwa [Nat.add_assoc n 1 k, Nat.add_comm 1 k] at h⟩
    · rw [List.length_cons, roundsLog, List.map_cons, List.flatten_cons, ← List.append_assoc,
        ← Nat.add_assoc n front.length 1, Nat.add_right_comm]
      exact hlast

/-- From the job `j₀` on, an upload has `stored` in its temp file, and `log` is what its
rounds have logged. -/
structure Uploading (fd : Int) (j₀ : Job) (log : List Event) (stored : Bytes) (j : Job) : Prop where
  place : Placed stored j.req
  path : j.req.path = j₀.req.path
  tempPath : tempPath j.req = tempPath j₀.req
  bytes : j.req.bytes = j₀.req.bytes
  received : ∃ got, j.os.recvd fd = j₀.os.recvd fd ++ got ∧
    stored ++ j.req.leftover = j₀.req.leftover ++ got
  conserved : stored ++ (j.req.leftover ++ stream fd j) = j₀.req.leftover ++ stream fd j₀
  files : j.req.started = false ∧ stored = [] ∧ j.os.files = j₀.os.files ∧ fileLog log = [] ∨
    j.req.started = true ∧ ∃ i ws, Held (LinkScheduling.tempPath j₀.req) j.req.fileFd i stored
      j₀.os.files j.os.files ∧ Writing j.req.fileFd stored ws ∧
        fileLog log = .opened (LinkScheduling.tempPath j₀.req) j.req.fileFd :: ws

section Uploading
variable {fd : Int} {sp : SliceParams} {j₀ j j' : Job} {log l : List Event} {stored part got : Bytes}
  {t : Int} {i : Nat}

theorem Uploading.held (h : Uploading fd j₀ log stored j) (took : Took fd sp t i stored j part got j' l) :
    Held (LinkScheduling.tempPath j₀.req) t i (stored ++ part) j₀.os.files j'.os.files ∧
      ∃ ws, Writing t (stored ++ part) ws ∧
        fileLog (log ++ l) = .opened (LinkScheduling.tempPath j₀.req) t :: ws := by
  have held := took.held
  rw [h.tempPath] at held
  obtain ⟨ws, writing, hlog⟩ := took.log
  rcases h.files with ⟨started, rfl, files, none⟩ | ⟨started, i', ws', held', writing', hlog'⟩
  · rw [files] at held
    refine ⟨held, ws, writing, ?_⟩
    rw [fileLog_append, none, hlog, opening, started, h.tempPath]
    rfl
  · obtain ⟨rfl, names⟩ := took.again started
    rw [h.tempPath, held'.names, Function.update_self, Option.some.injEq] at names
    subst names
    refine ⟨held'.trans held, ws' ++ ws, writing'.append writing, ?_⟩
    rw [fileLog_append, hlog', hlog, opening, started]
    rfl

theorem Uploading.step (h : Uploading fd j₀ log stored j) (took : Took fd sp t i stored j part got j' l) :
    Uploading fd j₀ (log ++ l) (stored ++ part) j' := by
  obtain ⟨held, ws, writing, hlog⟩ := h.held took
  obtain ⟨got', hgot, bytes⟩ := h.received
  have fileFd : j'.req.fileFd = t := by rw [took.req]
  have same : LinkScheduling.tempPath j'.req = LinkScheduling.tempPath j.req := by rw [took.req]; rfl
  refine ⟨took.placed h.place, by rw [took.req]; exact h.path, same.trans h.tempPath,
    by rw [took.req]; exact h.bytes, ⟨got' ++ got, ?_, ?_⟩, ?_, .inr ⟨by rw [took.req], i, ws, ?_⟩⟩
  · rw [took.talks.recvd_self, hgot, List.append_assoc]
  · rw [List.append_assoc, took.bytes, ← List.append_assoc, bytes, List.append_assoc]
  · rw [List.append_assoc, took.stream, h.conserved]
  · rw [fileFd]
    exact ⟨held, writing, hlog⟩

theorem Uploading.renames (h : Uploading fd j₀ log stored j) : renamesOf log = [] := by
  rw [← renamesOf_fileLog]
  rcases h.files with ⟨-, -, -, none⟩ | ⟨-, i, ws, -, writing, hlog⟩
  · rw [none]
    rfl
  · rw [hlog]
    exact writing.renames

theorem Uploading.installed {body : Bytes} (h : Uploading fd j₀ log stored j)
    (took : Took fd sp t i stored j part got j' l) {b : Files}
    (hb : Installed (LinkScheduling.tempPath j.req) j'.req.path t i body j.os.files b) :
    Installed (LinkScheduling.tempPath j₀.req) j₀.req.path t i body j₀.os.files b := by
  have path : j'.req.path = j₀.req.path := by
    rw [took.req]
    exact h.path
  rw [h.tempPath, path] at hb
  rcases h.files with ⟨-, -, files, -⟩ | ⟨started, i', ws', held', -⟩
  · rwa [files] at hb
  · obtain ⟨rfl, names⟩ := took.again started
    rw [h.tempPath, held'.names, Function.update_self, Option.some.injEq] at names
    subst names
    exact held'.installed hb

theorem Uploading.names (h : Uploading fd j₀ log stored j) {p : Path}
    (hp : p ≠ LinkScheduling.tempPath j₀.req) : j.os.files.names p = j₀.os.files.names p := by
  rcases h.files with ⟨-, -, files, -⟩ | ⟨-, i, ws, held, -⟩
  · rw [files]
  · rw [held.names, Function.update_of_ne hp]

theorem Uploading.content? (h : Uploading fd j₀ log stored j) {p : Path}
    (hp : p ≠ LinkScheduling.tempPath j₀.req) : j.os.files.content? p = j₀.os.files.content? p := by
  rcases h.files with ⟨-, -, files, -⟩ | ⟨-, i, ws, held, -⟩
  · rw [files]
  · exact held.content? hp

end Uploading

/-- A PUT as `admit_connection` enqueues it. -/
structure FreshPut (j : Job) : Prop where
  op : j.req.op = .put
  byteOffset : j.req.byteOffset = 0
  rounds : j.req.rounds = 0
  forfeitedBytes : j.req.forfeitedBytes = 0
  deficit : j.req.deficit = 0
  tmpPath : j.req.tmpPath = []
  fileFd : j.req.fileFd = -1
  started : j.req.started = false

theorem FreshPut.ready {j : Job} (h : FreshPut j) : PutReady [] j :=
  .fresh rfl h.started h.tmpPath h.fileFd

theorem FreshPut.uploading {j : Job} (h : FreshPut j) (fd : Int) : Uploading fd j [] [] j where
  place := ⟨by rw [h.byteOffset]; rfl, Nat.zero_le _⟩
  path := rfl
  tempPath := rfl
  bytes := rfl
  received := ⟨[], by simp, by simp⟩
  conserved := rfl
  files := .inl ⟨h.started, rfl, rfl, rfl⟩

structure Healthy (fd : Int) (sp : SliceParams) (j₀ : Job) (n : Nat) (log : List Event) (stored : Bytes)
    (j : Job) : Prop where
  uploading : Uploading fd j₀ log stored j
  sent : j.os.sent fd ++ greeting j.req = j₀.os.sent fd ++ formatOk 0
  quanta : bounded sp.policy = true → stored.length = n * sp.quantum.toNat
  rounds : bounded sp.policy = false → n = 0
  unfinished : n = 0 ∨ stored.length < j₀.req.bytes.toNat
  accounts : j.req.forfeitedBytes = 0 ∧ j.req.deficit = 0

section Healthy
variable {fd : Int} {sp : SliceParams} {j₀ j j' : Job} {n : Nat} {log l : List Event}
  {stored part got : Bytes} {t : Int} {i : Nat}

theorem Healthy.step (h : Healthy fd sp j₀ n log stored j) (took : Took fd sp t i stored j part got j' l)
    (unfinished : j'.req.byteOffset < j'.req.bytes) :
    Healthy fd sp j₀ (n + 1) (log ++ l) (stored ++ part) j' := by
  obtain ⟨hb, length⟩ := took.quantum h.uploading.place unfinished
  have after := h.uploading.step took
  refine ⟨after, ?_, ?_, by simp [hb], .inr ?_, ?_⟩
  · have greeted : greeting j'.req = [] := by rw [took.req]; rfl
    rw [greeted, List.append_nil, took.talks.sent_self, h.sent]
  · intro _
    rw [List.length_append, h.quanta hb, length, Nat.succ_mul]
  · rw [UInt64.lt_iff_toNat_lt, after.place.offset, after.bytes] at unfinished
    exact unfinished
  · rw [took.req]
    exact h.accounts

theorem Healthy.ends (h : Healthy fd sp j₀ n log stored j) {v : Except Fault SliceResult}
    (ended : PutEnd fd sp stored j v j' l) (clean : Clean l)
    (enough : j₀.req.bytes.toNat ≤ (j₀.req.leftover ++ stream fd j₀).length) :
    ∃ t i part got j₁ l₁ l₂, Took fd sp t i stored j part got j₁ l₁ ∧
      ¬ j₁.req.byteOffset < j₁.req.bytes ∧
      Landed fd (LinkScheduling.tempPath j.req) t i (stored ++ part) j.os.files j₁ v j' l₂ ∧
      l = l₁ ++ l₂ := by
  cases ended with
  | refused _ _ _ _ _ _ _ faulty => exact absurd clean faulty
  | kept _ _ _ _ short =>
    have few := short clean
    have total := congrArg List.length h.uploading.conserved
    have within := h.uploading.place.within
    have take := takeOf_toNat sp h.uploading.place
    have bytes := h.uploading.bytes
    simp only [List.length_append] at total enough
    rw [bytes] at within take
    split at take <;> omega
  | installed took finished landed hl => exact ⟨_, _, _, _, _, _, _, took, finished, landed, hl⟩

end Healthy

theorem servePut_step {fd : Int} {sp : SliceParams} (stored : Bytes) (j : Job) (hop : j.req.op = .put)
    (ready : PutReady stored j) : wp (serveSlice fd sp) j (PutStep fd sp stored j) := by
  have round := servePut_spec fd sp ready
  rw [wp, ← serveSlice_put fd sp hop] at round
  exact round.step ready

theorem FreshPut.run {j : Job} (h : FreshPut j) (fd : Int) {sp : SliceParams}
    (hq : bounded sp.policy = true → 0 < sp.quantum.toNat) {fuel : Nat}
    (enough : j.req.bytes.toNat < fuel) : PutRun fd sp [] j (serveRounds fd sp fuel j) :=
  callRounds_put servePut_step h.op h.ready (h.uploading fd).place hq (by simpa using enough)

theorem FreshPut.healthy {j : Job} (h : FreshPut j) (fd : Int) (sp : SliceParams) :
    Healthy fd sp j 0 [] [] j where
  uploading := h.uploading fd
  sent := by rw [greeting, h.started]; rfl
  quanta := by simp
  rounds := fun _ => rfl
  unfinished := .inl rfl
  accounts := ⟨h.forfeitedBytes, h.deficit⟩

/-- When no call fails and the peer writes enough, an upload runs to DONE. The destination
keeps its content until all declared bytes are in the temp file, and then holds these; the
temp file is gone, and the peer has been answered twice. Every PREEMPTED round moves exactly
one quantum. -/
theorem serveRounds_put_installs (fd : Int) (sp : SliceParams) {j : Job} (h : FreshPut j)
    (hq : bounded sp.policy = true → 0 < sp.quantum.toNat) {s : Bytes}
    (hs : s = j.req.leftover ++ stream fd j) (enough : j.req.bytes.toNat ≤ s.length) {fuel : Nat}
    (hfuel : j.req.bytes.toNat < fuel) (clean : ∀ o ∈ serveRounds fd sp fuel j, Clean o.log) :
    ∃ front last, serveRounds fd sp fuel j = front ++ [last] ∧ last.value = .ok .done ∧
      last.state.os.files.content? j.req.path = some (s.take j.req.bytes.toNat) ∧
      last.state.os.files.content? (tempPath j.req) = none ∧
      last.state.os.sent fd = j.os.sent fd ++ formatOk 0 ++ formatOk 0 ∧
      (bounded sp.policy = true → front.length + 1 =
        max 1 ((j.req.bytes.toNat + sp.quantum.toNat - 1) / sp.quantum.toNat)) ∧
      (bounded sp.policy = false → front = []) ∧
      (∀ k o, front[k]? = some o → o.value = .ok .preempted ∧
        o.state.req.byteOffset.toNat = (k + 1) * sp.quantum.toNat ∧
        o.state.os.files.content? j.req.path = j.os.files.content? j.req.path) ∧
      (∀ o ∈ serveRounds fd sp fuel j, o.state.req.forfeitedBytes = 0 ∧ o.state.req.deficit = 0) ∧
      ∃ t ws, Writing t (s.take j.req.bytes.toNat) ws ∧
        fileLog (roundsLog (serveRounds fd sp fuel j)) =
          .opened (tempPath j.req) t :: ws ++ [.renamed (tempPath j.req) j.req.path] := by
  obtain ⟨front, last, stored, j', split, states, -, healthy, ended⟩ :=
    (h.run fd hq hfuel).ends (Healthy fd sp j)
      (fun _ _ _ _ _ _ _ _ _ _ healthy took unfinished => healthy.step took unfinished)
      (h.healthy fd sp)
  rw [Nat.zero_add] at healthy
  have cleanLast : Clean last.log := clean last (by simp [split])
  obtain ⟨t, i, part, got, j₁, l₁, l₂, took, finished, landed, hlog⟩ :=
    healthy.ends ended cleanLast (hs ▸ enough)
  have place := healthy.uploading.place
  have bytes := healthy.uploading.bytes
  have whole := took.whole place finished
  have installed := healthy.uploading.installed took landed.files
  have body : stored ++ part = s.take j.req.bytes.toNat := by
    have same := healthy.uploading.conserved
    rw [← took.stream, ← List.append_assoc, ← hs] at same
    rw [← same, ← bytes, ← whole, List.take_left]
  have done : last.value = .ok .done := by
    rcases landed.result with ⟨value, -⟩ | ⟨-, faulty⟩
    · exact value
    · rw [hlog, clean_append] at cleanLast
      exact absurd cleanLast.2 faulty
  refine ⟨front, last, split, done, ?_, ?_, ?_, ?_, ?_, ?_, ?_, ?_⟩
  · rw [installed.content?_dst, body]
  · exact installed.content?_tmp (tempPath_ne j.req)
  · obtain ⟨out, talks, all⟩ := landed.talks
    rw [talks.sent_self, all done, took.talks.sent_self, healthy.sent]
  · intro hb
    refine max_one_ceilDiv (hq hb) ?_ ?_
    · have length := took.length
      rw [takeOf_toNat sp place, hb, if_pos rfl] at length
      have quanta := healthy.quanta hb
      rw [bytes, List.length_append] at whole
      rw [bytes] at length
      rw [Nat.succ_mul]
      omega
    · rw [← healthy.quanta hb]
      exact healthy.unfinished
  · intro hb
    exact List.length_eq_zero_iff.mp (healthy.rounds hb)
  · intro k o ho
    obtain ⟨value, unfinished, log', stored', hk⟩ := states k o ho
    have bounded' : bounded sp.policy = true := by
      by_contra hb
      have := hk.rounds (by simpa using hb)
      omega
    refine ⟨value, ?_, hk.uploading.content? (tempPath_ne j.req).symm⟩
    rw [hk.uploading.place.offset, hk.quanta bounded', Nat.zero_add]
  · intro o ho
    rw [split, List.mem_append, List.mem_singleton] at ho
    rcases ho with ho | rfl
    · obtain ⟨k, hk⟩ := List.mem_iff_getElem?.mp ho
      obtain ⟨-, -, log', stored', healthy'⟩ := states k o hk
      exact healthy'.accounts
    · rw [landed.req, took.req]
      exact healthy.accounts
  · obtain ⟨-, ws, writing, written⟩ := healthy.uploading.held took
    refine ⟨t, ws, body ▸ writing, ?_⟩
    have path : j₁.req.path = j.req.path := by
      rw [took.req]
      exact healthy.uploading.path
    rw [split, roundsLog, List.map_append, List.flatten_append]
    simp only [List.map_cons, List.map_nil, List.flatten_cons, List.flatten_nil, List.append_nil]
    rw [hlog, ← List.append_assoc, fileLog_append, landed.log, healthy.uploading.tempPath, path]
    exact congrArg (· ++ [_]) written

/-- A PUT to a directory with the file `other`. The peer has written `leftover` behind its
header line, and writes `body` once it has been answered. -/
def singlePut (name other : Bytes) (bytes : UInt64) (leftover body : Bytes) (script : List Reply) : Job where
  req := { id := 1, op := .put, filename := name, bytes := bytes, leftover := leftover, path := name }
  os := { Os.start (Files.single other []) script with peer := fun _ sent => if sent = [] then [] else body }

theorem singlePut_fresh (name other : Bytes) (bytes : UInt64) (leftover body : Bytes)
    (script : List Reply) : FreshPut (singlePut name other bytes leftover body script) :=
  ⟨rfl, rfl, rfl, rfl, rfl, rfl, rfl, rfl⟩

theorem serveRounds_put_installs_single : ∃ front last,
    serveRounds 7 { policy := .drr, quantum := 2 } 6
        (singlePut [102] [103] 5 [97] [98, 99, 100, 101, 102] shortCounts) = front ++ [last] ∧
      last.value = .ok .done ∧ last.state.os.files.content? [102] = some [97, 98, 99, 100, 101] := by
  obtain ⟨front, last, split, done, content, -⟩ := serveRounds_put_installs 7
    { policy := .drr, quantum := 2 } (singlePut_fresh [102] [103] 5 [97] [98, 99, 100, 101, 102] shortCounts)
    (by decide) rfl (by decide) (by decide : _ < 6) (by decide)
  exact ⟨front, last, split, done, content⟩

end LinkScheduling
