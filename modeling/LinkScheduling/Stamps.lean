import LinkScheduling.Clock
import LinkScheduling.Conservation

/-! The time stamps and the counter of a row. `next` of the schedulers takes a request under the
lock of the queue and reads the clock after it is released, so others may act in between: a
worker is late until it has returned from `next`. Only the thread or the worker that has a request
writes its stamps. -/

namespace LinkScheduling
open Effect Pools

/-- The server, and the workers that have taken a request and not returned from `next` yet. -/
structure Clocked where
  server : Server
  late : List Nat := []

inductive Turn
  | act (a : Act)
  | take (w : Nat)
  | stamp (w : Nat)

namespace Clocked

def free (c : Clocked) : Act → Bool
  | .work w => decide (w ∉ c.late ∧ ¬ (c.server.workers[w]? = some .asking ∧ c.server.queue ≠ []))
  | _ => true

/-- `pop_pick`, with the queue locked. -/
def take (cfg : Config) (w : Nat) (c : Clocked) : Option Clocked :=
  if c.server.crashed = false ∧ c.server.workers[w]? = some .asking then
    let i := pick cfg.sp.policy c.server.sizes
    (c.server.queue[i]?).map fun id =>
      ⟨{ c.server with queue := c.server.queue.eraseIdx i }.setWorker w (.holding id), w :: c.late⟩
  else none

def taken (c : Clocked) (w : Nat) : Option Nat :=
  if w ∈ c.late then (c.server.workers[w]?).bind Worker.request else none

/-- The rest of `next`, with the queue unlocked. -/
def stamp (w : Nat) (c : Clocked) : Option Clocked :=
  if c.server.crashed then none
  else
    (c.taken w).bind fun id => (c.server.heap id).map fun r =>
      ⟨c.server.setRequest id (some { r with startNs := if r.startNs = 0 then c.server.os.now else r.startNs }),
        c.late.filter (· ≠ w)⟩

def step (cfg : Config) : Turn → Clocked → Option Clocked
  | .act a, c =>
    if c.free a then (LinkScheduling.step cfg a c.server).map fun s => { c with server := s } else none
  | .take w, c => c.take cfg w
  | .stamp w, c => c.stamp w

def run (cfg : Config) : List Turn → Clocked → Option Clocked
  | [], c => some c
  | a :: as, c => (step cfg a c).bind (run cfg as)

def returns (c : Clocked) : Turn → List (Nat × Nat)
  | .stamp w => (c.taken w).toList.map fun id => (id, c.server.os.now)
  | _ => []

def nexts (cfg : Config) : List Turn → Clocked → List (Nat × Nat)
  | [], _ => []
  | a :: as, c =>
    match step cfg a c with
    | none => []
    | some c' => c.returns a ++ nexts cfg as c'

end Clocked

def times (ns : List (Nat × Nat)) (id : Nat) : List Nat := (ns.filter fun p => p.1 = id).map Prod.snd

/-- A row whose stamps are in order: `start_ns` is when `next` returned the request first, and
`rounds` how often it did. -/
structure Consistent (r : Request) (ns : List (Nat × Nat)) : Prop where
  arrival_le : r.arrivalNs ≤ r.startNs
  start_le : r.startNs ≤ r.finishNs
  first : (times ns r.id).head? = some r.startNs
  rounds : r.rounds = (times ns r.id).length

@[simp] theorem times_append (ns ns' : List (Nat × Nat)) (id : Nat) :
    times (ns ++ ns') id = times ns id ++ times ns' id := by
  simp [times]

theorem mem_times {ns : List (Nat × Nat)} {id t : Nat} : t ∈ times ns id ↔ (id, t) ∈ ns := by
  simp [times]

theorem times_singleton (id t : Nat) : times [(id, t)] id = [t] := by simp [times]

theorem times_other {id x : Nat} (t : Nat) (h : x ≠ id) : times [(id, t)] x = [] := by simp [times, Ne.symm h]

def Worker.logged : Worker → Option Nat
  | .recorded id => some id
  | _ => none

def Server.passed (s : Server) (id : Nat) : Nat := tally Worker.logged s.workers id + tally Mark.finalise s.history id

def Clocked.Serving (c : Clocked) (id : Nat) : Prop := ∃ w, c.server.workers[w]? = some (.holding id) ∧ w ∉ c.late

structure Dated (c : Clocked) (ns : List (Nat × Nat)) (id : Nat) (r : Request) : Prop where
  ids : r.id = id
  arrived : r.arrivalNs ≤ c.server.os.now
  after : ∀ t ∈ times ns id, r.arrivalNs ≤ t
  start : r.startNs = (times ns id).head?.getD 0
  resting : ¬ c.Serving id → r.rounds = (times ns id).length
  serving : c.Serving id → r.rounds + 1 = (times ns id).length

/-- What holds of the stamps in every state; a process that has ended by an exception writes no
row any more. -/
structure Stamped (c : Clocked) (ns : List (Nat × Nat)) : Prop where
  late : ∀ w ∈ c.late, ∃ id, c.server.workers[w]? = some (.holding id)
  clock : 0 < c.server.os.now
  past : ∀ {id t}, (id, t) ∈ ns → 0 < t ∧ t ≤ c.server.os.now ∧ 0 < tally Mark.enqueue c.server.history id
  heap : c.server.crashed = false → ∀ {id r}, c.server.heap id = some r → Dated c ns id r
  begun : ∀ {w p id}, c.server.workers[w]? = some p → p.request = some id → w ∉ c.late → times ns id ≠ []
  rows : ∀ r ∈ c.server.accounts.rows, Consistent r ns ∧ 0 < c.server.passed r.id

theorem Stamped.start {os : Os} (now : 0 < os.now) (threads : Nat) : Stamped ⟨.start os threads, []⟩ [] where
  late := by simp
  clock := now
  past := by simp
  heap _ _ _ h := by cases h
  begun h hp := by
    rw [List.eq_of_mem_replicate (List.mem_of_getElem? h)] at hp
    cases hp
  rows := by simp [Server.start]

section Workers
variable {s : Server} {w id : Nat} {p p' : Worker}

theorem Placement.worker_unique (h : Placement s) {v : Nat} (hw : s.workers[w]? = some p) (hp : p.request = some id)
    (hv : s.workers[v]? = some p') (hp' : p'.request = some id) : v = w := by
  by_contra other
  have places := h.places id
  have once := h.once id
  have moved := tally_set Worker.request id hw .asking
  have still : (s.workers.set w .asking)[v]? = some p' := by rw [List.getElem?_set_ne (Ne.symm other), hv]
  have pos := tally_pos Worker.request id (List.mem_of_getElem? still) hp'
  rw [hp, hit_self] at moved
  simp only [Worker.request, hit_none] at moved
  omega

theorem worker_set {q : Worker} {v : Nat} (h : (s.workers.set w p)[v]? = some q) (hw : w < s.workers.length) :
    v = w ∧ q = p ∨ v ≠ w ∧ s.workers[v]? = some q := by
  by_cases same : v = w
  · subst same
    rw [List.getElem?_set_self hw] at h
    exact .inl ⟨rfl, (Option.some.inj h).symm⟩
  · rw [List.getElem?_set_ne (Ne.symm same)] at h
    exact .inr ⟨same, h⟩

theorem serving_set {s' : Server} {late late' : List Nat} (hw : s.workers[w]? = some p)
    (workers : s'.workers = s.workers.set w p') (old : p = .holding id → w ∈ late)
    (new : p' = .holding id → w ∈ late') (same : ∀ v ≠ w, (v ∈ late' ↔ v ∈ late)) :
    Clocked.Serving ⟨s', late'⟩ id ↔ Clocked.Serving ⟨s, late⟩ id := by
  have lt := (List.getElem?_eq_some_iff.mp hw).1
  constructor
  · rintro ⟨v, hv, prompt⟩
    simp only [workers] at hv
    rcases worker_set hv lt with ⟨rfl, hq⟩ | ⟨other, hv⟩
    · exact absurd (new hq.symm) prompt
    · exact ⟨v, hv, fun h => prompt ((same v other).mpr h)⟩
  · rintro ⟨v, hv, prompt⟩
    have other : v ≠ w := by
      rintro rfl
      exact prompt (old (Option.some.inj (hw.symm.trans hv)))
    refine ⟨v, ?_, fun h => prompt ((same v other).mp h)⟩
    simp only [workers, List.getElem?_set_ne (Ne.symm other)]
    exact hv

end Workers

section Steps
variable {c c' : Clocked} {ns : List (Nat × Nat)} {id : Nat} {r r' : Request}

theorem Dated.keeps (h : Dated c ns id r) (now : c.server.os.now ≤ c'.server.os.now) (serving : c'.Serving id ↔ c.Serving id)
    (same : r'.id = r.id := by rfl) (arrival : r'.arrivalNs = r.arrivalNs := by rfl)
    (start : r'.startNs = r.startNs := by rfl) (rounds : r'.rounds = r.rounds := by rfl) : Dated c' ns id r' where
  ids := same.trans h.ids
  arrived := arrival ▸ h.arrived.trans now
  after := arrival ▸ h.after
  start := start.trans h.start
  resting free := rounds.trans (h.resting fun held => free (serving.mpr held))
  serving held := by rw [rounds, h.serving (serving.mp held)]

theorem Stamped.moved {s' : Server} (h : Stamped c ns) (now : c.server.os.now ≤ s'.os.now)
    (heap : s'.crashed = false → ∀ {id r'}, s'.heap id = some r' → Dated ⟨s', c.late⟩ ns id r')
    (enqueued : ∀ id, tally Mark.enqueue c.server.history id ≤ tally Mark.enqueue s'.history id := by exact fun _ => le_rfl)
    (finalised : ∀ id, tally Mark.finalise c.server.history id ≤ tally Mark.finalise s'.history id := by
      exact fun _ => le_rfl)
    (workers : s'.workers = c.server.workers := by rfl) (accounts : s'.accounts = c.server.accounts := by rfl) :
    Stamped ⟨s', c.late⟩ ns where
  late w hw := by
    simp only [workers]
    exact h.late w hw
  clock := lt_of_lt_of_le h.clock now
  past hp := by
    obtain ⟨pos, le, served⟩ := h.past hp
    exact ⟨pos, le.trans now, lt_of_lt_of_le served (enqueued _)⟩
  heap := heap
  begun {w p id} hw hp prompt := by
    simp only [workers] at hw
    exact h.begun hw hp prompt
  rows r hr := by
    simp only [accounts] at hr
    obtain ⟨consistent, passed⟩ := h.rows r hr
    refine ⟨consistent, lt_of_lt_of_le passed ?_⟩
    simp only [Server.passed, workers]
    exact Nat.add_le_add_left (finalised _) _

theorem Stamped.still {s' : Server} (h : Stamped c ns) (now : c.server.os.now ≤ s'.os.now := by exact le_rfl)
    (enqueued : ∀ id, tally Mark.enqueue c.server.history id ≤ tally Mark.enqueue s'.history id := by exact fun _ => le_rfl)
    (finalised : ∀ id, tally Mark.finalise c.server.history id ≤ tally Mark.finalise s'.history id := by
      exact fun _ => le_rfl)
    (up : s'.crashed = false → c.server.crashed = false := by exact fun h => h)
    (heap : s'.heap = c.server.heap := by rfl) (workers : s'.workers = c.server.workers := by rfl)
    (accounts : s'.accounts = c.server.accounts := by rfl) : Stamped ⟨s', c.late⟩ ns := by
  refine h.moved now (fun alive id r' hr => ?_) enqueued finalised workers accounts
  rw [heap] at hr
  refine (h.heap (up alive) hr).keeps now ?_
  simp only [Clocked.Serving, workers]

theorem tally_le_append {f : Mark → Option Nat} (l l' : List Mark) (id : Nat) : tally f l id ≤ tally f (l ++ l') id := by
  rw [tally_append]
  exact Nat.le_add_right _ _

theorem Stamped.unserved (h : Stamped c ns) (none : tally Mark.enqueue c.server.history id = 0) : times ns id = [] := by
  refine List.eq_nil_iff_forall_not_mem.mpr fun t ht => ?_
  have served := (h.past (mem_times.mp ht)).2.2
  omega

theorem Placement.unserved (placed : Placement c.server) (none : tally Mark.enqueue c.server.history id = 0) :
    ¬ c.Serving id := by
  rintro ⟨w, hw, -⟩
  have places := placed.places id
  have pos := tally_pos Worker.request id (List.mem_of_getElem? hw) rfl
  omega

theorem acceptor_stamped {a : Act} {s' : Server} (h : Stamped c ns) (step : acceptorStep a c.server = some s') :
    Stamped ⟨s', c.late⟩ ns := by
  unfold acceptorStep at step
  split at step
  · split at step
    · cases step
      exact h.still le_rfl (tally_le_append _ _) (tally_le_append _ _)
    · cases step
  · cases step
    split <;> exact h.still
  · cases step
    exact h.still
  · cases step
    exact h.still
  · cases step
    exact h.still
  · cases step
    exact h.still (answer_ages _ _ _) (tally_le_append _ _) (tally_le_append _ _)
  · cases step

theorem main_stamped {s' : Server} (h : Stamped c ns) (step : mainStep c.server = some s') : Stamped ⟨s', c.late⟩ ns := by
  unfold mainStep at step
  split at step
  · split at step
    · cases step
      exact h.still
    · cases step
  · split at step
    · cases step
      exact h.still
    · cases step
  · split at step
    · cases step
    · cases step
      exact h.still
  · cases step
    exact h.still
  · split at step
    · cases step
      exact h.still
    · cases step
  · cases step

theorem Stamped.set {s' : Server} (h : Stamped c ns) (now : c.server.os.now ≤ s'.os.now)
    (heap : s'.heap = Function.update c.server.heap id (some r'))
    (timed : c.server.crashed = false → Dated ⟨s', c.late⟩ ns id r')
    (enqueued : ∀ id, tally Mark.enqueue c.server.history id ≤ tally Mark.enqueue s'.history id := by exact fun _ => le_rfl)
    (finalised : ∀ id, tally Mark.finalise c.server.history id ≤ tally Mark.finalise s'.history id := by
      exact fun _ => le_rfl)
    (up : s'.crashed = false → c.server.crashed = false := by exact fun h => h)
    (workers : s'.workers = c.server.workers := by rfl) (accounts : s'.accounts = c.server.accounts := by rfl) :
    Stamped ⟨s', c.late⟩ ns := by
  refine h.moved now (fun alive x u hu => ?_) enqueued finalised workers accounts
  rw [heap] at hu
  by_cases same : x = id
  · subst same
    rw [Function.update_self] at hu
    cases hu
    exact timed (up alive)
  · rw [Function.update_of_ne same] at hu
    refine (h.heap (up alive) hu).keeps now ?_
    simp only [Clocked.Serving, workers]

theorem Stamped.read {k : Nat} {fd : Int} {o : Outcome Fault Os Event HeaderReadResult} (h : Stamped c ns)
    (now : c.server.os.now ≤ o.state.now) : Stamped ⟨c.server.readDone k fd o, c.late⟩ ns := by
  rcases readDone_cases c.server k fd o with ⟨hdr, hv, done⟩ | ⟨e, hv, done⟩
  · rw [done]
    exact h.still now
  · rw [done]
    exact h.still now (fun _ => le_rfl) (fun _ => le_rfl) fun alive => by cases alive

theorem Stamped.opened {k : Nat} {fd : Int} {o : Outcome Fault Os Event (Option (Int × UInt64))} (h : Stamped c ns)
    (hr : c.server.heap id = some r) (now : c.server.os.now ≤ o.state.now) :
    Stamped ⟨c.server.openDone k fd id r o, c.late⟩ ns := by
  rcases openDone_cases c.server k fd id r o with ⟨n, size, hv, done⟩ | ⟨hv, done⟩ | ⟨e, hv, done⟩
  · rw [done]
    exact h.set now rfl (fun alive => (h.heap alive hr).keeps now Iff.rfl) (tally_le_append _ _) (tally_le_append _ _)
  · rw [done]
    refine h.moved now fun alive x u hu => ?_
    change Function.update c.server.heap id none x = some u at hu
    by_cases same : x = id
    · rw [same, Function.update_self] at hu
      cases hu
    · rw [Function.update_of_ne same] at hu
      exact (h.heap alive hu).keeps now Iff.rfl
  · rw [done]
    exact h.still now (fun _ => le_rfl) (fun _ => le_rfl) fun alive => by cases alive

theorem thread_stamped {cfg : Config} {k : Nat} {s' : Server} (h : Stamped c ns) (placed : Placement c.server)
    (step : threadStep cfg k c.server = some s') : Stamped ⟨s', c.late⟩ ns := by
  unfold threadStep at step
  cases hk : c.server.threads[k]? with
  | none => simp [hk] at step
  | some thread =>
    obtain ⟨fd, phase⟩ := thread
    simp only [hk] at step
    cases phase with
    | reading =>
      obtain rfl := Option.some.inj step
      exact h.read (readHeaderLine_ages fd kHeaderTimeoutMs c.server.os)
    | asked =>
      cases step
      exact h.still
    | answering reply =>
      cases step
      exact h.still (answer_ages _ _ _) (tally_le_append _ _) (tally_le_append _ _)
    | numbering op filename bytes leftover =>
      cases step
      have fresh := placed.fresh c.server.nextId (le_refl _)
      have unserved := h.unserved (show tally Mark.enqueue c.server.history c.server.nextId = 0 by omega)
      change times ns (newRequest cfg c.server.nextId fd op filename bytes leftover).id = [] at unserved
      have idle := placed.unserved (show tally Mark.enqueue c.server.history c.server.nextId = 0 by omega)
      refine h.set le_rfl rfl (fun _ => ⟨rfl, Nat.zero_le _, ?_, ?_, fun _ => ?_, fun serving => absurd serving idle⟩)
        (tally_le_append _ _) (tally_le_append _ _)
      · intro t ht
        rw [unserved] at ht
        cases ht
      · rw [unserved]
        rfl
      · rw [unserved]
        rfl
    | stamping id =>
      obtain ⟨r, hr, rfl⟩ := Option.map_eq_some_iff.mp step
      have once := placed.once id
      have pos := tally_pos Thread.request id (List.mem_of_getElem? hk) rfl
      have unserved := h.unserved (show tally Mark.enqueue c.server.history id = 0 by omega)
      refine h.set le_rfl rfl fun alive => ?_
      have timed := h.heap alive hr
      refine ⟨timed.ids, le_rfl, fun t ht => ?_, timed.start, timed.resting, timed.serving⟩
      rw [unserved] at ht
      cases ht
    | opening id =>
      obtain ⟨r, hr, rfl⟩ := Option.map_eq_some_iff.mp step
      exact h.opened hr (openGet_ages r.path c.server.os)
    | enqueuing id =>
      cases step
      exact h.still le_rfl (tally_le_append _ _) (tally_le_append _ _)
    | leaving =>
      cases step
      exact h.still
    | gone => cases step

theorem Stamped.worked {s' : Server} {w : Nat} {p : Worker} (p' : Worker) (h : Stamped c ns)
    (hw : c.server.workers[w]? = some p) (prompt : w ∉ c.late) (now : c.server.os.now ≤ s'.os.now)
    (begun : ∀ x, p'.request = some x → times ns x ≠ [])
    (heap : s'.crashed = false → ∀ {x u}, s'.heap x = some u → Dated ⟨s', c.late⟩ ns x u)
    (rows : ∀ r ∈ s'.accounts.rows, Consistent r ns ∧ 0 < s'.passed r.id)
    (enqueued : ∀ id, tally Mark.enqueue c.server.history id ≤ tally Mark.enqueue s'.history id := by exact fun _ => le_rfl)
    (workers : s'.workers = c.server.workers.set w p' := by rfl) : Stamped ⟨s', c.late⟩ ns where
  late v hv := by
    have other : v ≠ w := by
      rintro rfl
      exact prompt hv
    simp only [workers, List.getElem?_set_ne (Ne.symm other)]
    exact h.late v hv
  clock := lt_of_lt_of_le h.clock now
  past hp := by
    obtain ⟨pos, le, served⟩ := h.past hp
    exact ⟨pos, le.trans now, lt_of_lt_of_le served (enqueued _)⟩
  heap := heap
  begun {v q x} hv hq prompt' := by
    simp only [workers] at hv
    rcases worker_set hv (List.getElem?_eq_some_iff.mp hw).1 with ⟨rfl, rfl⟩ | ⟨other, hv⟩
    · exact begun x hq
    · exact h.begun hv hq prompt'
  rows := rows

theorem passed_set {s' : Server} {w : Nat} {p p' : Worker} (hw : c.server.workers[w]? = some p)
    (workers : s'.workers = c.server.workers.set w p') (logged : p'.logged = p.logged)
    (finalised : ∀ id, tally Mark.finalise c.server.history id ≤ tally Mark.finalise s'.history id) (id : Nat) :
    c.server.passed id ≤ s'.passed id := by
  unfold Server.passed
  rw [workers, tally_move Worker.logged hw logged]
  exact Nat.add_le_add_left (finalised id) _

theorem Stamped.rows_kept {s' : Server} (h : Stamped c ns) (accounts : s'.accounts = c.server.accounts)
    (passed : ∀ id, c.server.passed id ≤ s'.passed id) : ∀ r ∈ s'.accounts.rows, Consistent r ns ∧ 0 < s'.passed r.id := by
  intro r hr
  rw [accounts] at hr
  obtain ⟨consistent, over_⟩ := h.rows r hr
  exact ⟨consistent, lt_of_lt_of_le over_ (passed _)⟩

theorem fixed_stamps {r r' : Request} (h : r'.fixed = r.fixed) :
    r'.id = r.id ∧ r'.arrivalNs = r.arrivalNs ∧ r'.startNs = r.startNs := by
  refine ⟨?_, ?_, ?_⟩
  · exact show r'.fixed.id = r.fixed.id by rw [h]
  · exact show r'.fixed.arrivalNs = r.fixed.arrivalNs by rw [h]
  · exact show r'.fixed.startNs = r.fixed.startNs by rw [h]

/-- `s'` is `s` after the slice `o` of the request `id`, with its worker moved on. -/
structure Sliced (s : Server) (w id : Nat) (o : Round) (p' : Worker) (s' : Server) : Prop where
  os : s'.os = o.state.os
  heap : s'.heap = Function.update s.heap id (some o.state.req)
  history : s'.history = s.history ++ sliceMarks id o
  workers : s'.workers = s.workers.set w p'
  accounts : s'.accounts = s.accounts

theorem slice_stamped {cfg : Config} {s' : Server} {w : Nat} {p' : Worker} {o : Round} (h : Stamped c ns)
    (placed : Placement c.server) (hw : c.server.workers[w]? = some (.holding id)) (prompt : w ∉ c.late)
    (hr : c.server.heap id = some r) (ho : o = serveOrReport r.clientFd cfg.sp ⟨r, c.server.os⟩)
    (request : p'.request = some id) (logged : p'.logged = none) (resting : ∀ x, p' ≠ .holding x)
    (up : c.server.crashed = false) (sliced : Sliced c.server w id o p' s') : Stamped ⟨s', c.late⟩ ns := by
  obtain ⟨os, heap, history, workers, accounts⟩ := sliced
  have counts := serveOrReport_counts r.clientFd cfg.sp ⟨r, c.server.os⟩
  rw [← ho] at counts
  have now : c.server.os.now ≤ s'.os.now := by
    rw [os]
    exact counts.ages
  have marks : ∀ f : Mark → Option Nat, ∀ x, tally f c.server.history x ≤ tally f s'.history x := by
    intro f x
    rw [history]
    exact tally_le_append _ _ x
  refine h.worked p' hw prompt now (fun x hx => ?_) (fun _ x u hu => ?_)
    (h.rows_kept accounts (passed_set hw workers logged (marks _))) (marks _) workers
  · rw [request] at hx
    cases hx
    exact h.begun hw rfl prompt
  · rw [heap] at hu
    by_cases same : x = id
    · subst same
      rw [Function.update_self] at hu
      cases hu
      have timed := h.heap up hr
      have fixed := (serveOrReport_apart r.clientFd cfg.sp ⟨r, c.server.os⟩).fixed
      rw [← ho] at fixed
      have ended : ¬ Clocked.Serving ⟨s', c.late⟩ x := by
        rintro ⟨v, hv, -⟩
        simp only [workers] at hv
        rcases worker_set hv (List.getElem?_eq_some_iff.mp hw).1 with ⟨-, hq⟩ | ⟨other, hv⟩
        · exact resting x hq.symm
        · exact other (placed.worker_unique hw rfl hv rfl)
      obtain ⟨ids, arrival, start⟩ := fixed_stamps fixed
      refine ⟨ids.trans timed.ids, ?_, ?_, ?_, fun _ => ?_, fun serving => absurd serving ended⟩
      · rw [arrival]
        exact timed.arrived.trans now
      · rw [arrival]
        exact timed.after
      · rw [start]
        exact timed.start
      · rw [counts.rounds]
        exact timed.serving ⟨w, hw, prompt⟩
    · rw [Function.update_of_ne same] at hu
      refine (h.heap up hu).keeps now (serving_set hw workers (fun hold => ?_) (fun hold => absurd hold (resting x)) ?_)
      · cases hold
        exact absurd rfl same
      · exact fun _ _ => Iff.rfl

theorem Stamped.heap_kept {s' : Server} {w : Nat} {p : Worker} (p' : Worker) (h : Stamped c ns) (up : c.server.crashed = false)
    (hw : c.server.workers[w]? = some p) (old : ∀ x, p ≠ .holding x) (new : ∀ x, p' ≠ .holding x)
    (now : c.server.os.now ≤ s'.os.now) (workers : s'.workers = c.server.workers.set w p')
    (heap : ∀ {x u}, s'.heap x = some u → ∃ v, c.server.heap x = some v ∧ u.id = v.id ∧ u.arrivalNs = v.arrivalNs ∧
      u.startNs = v.startNs ∧ u.rounds = v.rounds) {x : Nat} {u : Request} (hu : s'.heap x = some u) :
    Dated ⟨s', c.late⟩ ns x u := by
  obtain ⟨v, hv, ids, arrival, start, rounds⟩ := heap hu
  exact (h.heap up hv).keeps now (serving_set hw workers (fun hold => absurd hold (old x))
    (fun hold => absurd hold (new x)) fun _ _ => Iff.rfl) ids arrival start rounds

theorem record_stamped {w : Nat} {res : SliceResult} (h : Stamped c ns) (placed : Placement c.server)
    (up : c.server.crashed = false) (hw : c.server.workers[w]? = some (.served id res)) (prompt : w ∉ c.late)
    (hr : c.server.heap id = some r) (hr' : r' = { r with finishNs := c.server.os.now }) :
    Stamped ⟨({ c.server with accounts := c.server.accounts.record res r' }.setRequest id (some r')).setWorker w
      (.recorded id), c.late⟩ ns := by
  have timed := h.heap up hr
  have some_ := h.begun hw rfl prompt
  have idle : ¬ c.Serving id := by
    rintro ⟨v, hv, -⟩
    cases placed.worker_unique hw rfl hv rfl
    cases hw.symm.trans hv
  have logged : ∀ x, c.server.passed x ≤ Server.passed (({ c.server with
      accounts := c.server.accounts.record res r' }.setRequest id (some r')).setWorker w (.recorded id)) x := by
    intro x
    have moved := tally_set Worker.logged x hw (.recorded id)
    simp only [Worker.logged, hit_none] at moved
    simp only [Server.passed, Server.setWorker, Server.setRequest]
    omega
  have passed : 0 < Server.passed (({ c.server with
      accounts := c.server.accounts.record res r' }.setRequest id (some r')).setWorker w (.recorded id)) id := by
    have moved := tally_set Worker.logged id hw (.recorded id)
    simp only [Worker.logged, hit_none, hit_self] at moved
    simp only [Server.passed, Server.setWorker, Server.setRequest]
    omega
  refine h.worked (.recorded id) hw prompt le_rfl (fun x hx => ?_) (fun _ x u hu => ?_) (fun q hq => ?_)
  · cases hx
    exact some_
  · refine h.heap_kept (.recorded id) up hw (fun x hold => by cases hold) (fun x hold => by cases hold) (by exact le_rfl)
      (by rfl) (fun {x u} hu => ?_) hu
    change Function.update c.server.heap id (some r') x = some u at hu
    by_cases same : x = id
    · subst same
      rw [Function.update_self] at hu
      cases hu
      exact ⟨r, hr, by rw [hr'], by rw [hr'], by rw [hr'], by rw [hr']⟩
    · rw [Function.update_of_ne same] at hu
      exact ⟨u, hu, rfl, rfl, rfl, rfl⟩
  · change q ∈ (c.server.accounts.record res r').rows at hq
    have cases_ : q ∈ c.server.accounts.rows ∨ q = r' := by
      unfold Accounts.record at hq
      split at hq
      · rcases List.mem_append.mp hq with hq | hq
        · exact .inl hq
        · exact .inr (List.mem_singleton.mp hq)
      · exact .inl hq
    rcases cases_ with hq | hq
    · obtain ⟨consistent, over_⟩ := h.rows q hq
      exact ⟨consistent, lt_of_lt_of_le over_ (logged _)⟩
    · have ids : q.id = id := by rw [hq, hr', ← timed.ids]
      rw [ids]
      refine ⟨?_, passed⟩
      obtain ⟨t, ts, split⟩ := List.exists_cons_of_ne_nil some_
      have start := timed.start
      rw [split, List.head?_cons, Option.getD_some] at start
      have mem : t ∈ times ns id := by rw [split]; exact List.mem_cons_self
      have past := h.past (mem_times.mp mem)
      subst hq
      subst hr'
      refine ⟨?_, ?_, ?_, ?_⟩
      · change r.arrivalNs ≤ r.startNs
        rw [start]
        exact timed.after t mem
      · change r.startNs ≤ c.server.os.now
        rw [start]
        exact past.2.1
      · rw [ids, split, List.head?_cons]
        exact congrArg some start.symm
      · rw [ids]
        exact timed.resting idle

theorem worker_stamped {cfg : Config} {w : Nat} {s' : Server} (h : Stamped c ns) (placed : Placement c.server)
    (up : c.server.crashed = false) (prompt : w ∉ c.late)
    (asks : ¬ (c.server.workers[w]? = some .asking ∧ c.server.queue ≠ []))
    (step : workerStep cfg w c.server = some s') : Stamped ⟨s', c.late⟩ ns := by
  unfold workerStep at step
  cases hw : c.server.workers[w]? with
  | none => simp [hw] at step
  | some worker =>
    simp only [hw] at step
    cases worker with
    | asking =>
      by_cases hq : c.server.queue = []
      · simp only [if_pos hq] at step
        split at step
        · cases step
          refine h.worked .exited hw prompt le_rfl (fun x hx => by cases hx) (fun _ x u hu => ?_)
            (h.rows_kept rfl (passed_set hw rfl rfl fun _ => le_rfl))
          exact h.heap_kept .exited up hw (fun x hold => by cases hold) (fun x hold => by cases hold) (by exact le_rfl)
            (by rfl) (by exact fun hu => ⟨_, hu, rfl, rfl, rfl, rfl⟩) hu
        · cases step
      · exact absurd ⟨hw, hq⟩ asks
    | holding id =>
      obtain ⟨r, hr, rfl⟩ := Option.map_eq_some_iff.mp step
      generalize ho : serveOrReport r.clientFd cfg.sp ⟨r, c.server.os⟩ = o
      rcases sliceDone_cases c.server w id o with ⟨hv, done⟩ | ⟨res, hv, final, done⟩ | ⟨e, hv, done⟩
      · rw [done]
        exact slice_stamped h placed hw prompt hr ho.symm rfl rfl (fun x hold => by cases hold) up
          ⟨rfl, rfl, rfl, rfl, rfl⟩
      · rw [done]
        exact slice_stamped h placed hw prompt hr ho.symm rfl rfl (fun x hold => by cases hold) up
          ⟨rfl, rfl, rfl, rfl, rfl⟩
      · rw [done]
        have counts := serveOrReport_counts r.clientFd cfg.sp ⟨r, c.server.os⟩
        rw [ho] at counts
        refine h.moved counts.ages (fun alive => by cases alive) (tally_le_append _ _) (tally_le_append _ _)
    | preempted id =>
      cases step
      refine h.worked .asking hw prompt le_rfl (fun x hx => by cases hx) (fun _ x u hu => ?_)
        (h.rows_kept rfl (passed_set hw rfl rfl fun _ => le_rfl))
      exact h.heap_kept .asking up hw (fun x hold => by cases hold) (fun x hold => by cases hold) (by exact le_rfl)
        (by rfl) (by exact fun hu => ⟨_, hu, rfl, rfl, rfl, rfl⟩) hu
    | served id res =>
      obtain ⟨r, hr, rfl⟩ := Option.map_eq_some_iff.mp step
      exact record_stamped h placed up hw prompt hr rfl
    | recorded id =>
      obtain ⟨r, hr, rfl⟩ := Option.map_eq_some_iff.mp step
      have now : c.server.os.now ≤ (finalise ⟨r, c.server.os⟩).state.os.now := (finalise_later ⟨r, c.server.os⟩).ages
      generalize finalise ⟨r, c.server.os⟩ = o at now
      refine h.worked .asking hw prompt now (fun x hx => by cases hx) (fun _ x u hu => ?_) (h.rows_kept rfl fun x => ?_)
        (tally_le_append _ _)
      · refine h.heap_kept .asking up hw (fun x hold => by cases hold) (fun x hold => by cases hold) (by exact now) (by rfl)
          (fun {x u} hu => ?_) hu
        change Function.update c.server.heap id none x = some u at hu
        by_cases same : x = id
        · rw [same, Function.update_self] at hu
          cases hu
        · rw [Function.update_of_ne same] at hu
          exact ⟨u, hu, rfl, rfl, rfl, rfl⟩
      · -- the row is written, and the request finalised
        have moved := tally_set Worker.logged x hw .asking
        simp only [Worker.logged, hit_none] at moved
        simp only [Server.passed, Server.mark, Server.setWorker, Server.released, tally_append, tally_cons, tally_nil,
          Mark.finalise]
        omega
    | exited => cases step

theorem take_stamped {w i : Nat} (h : Stamped c ns) (hw : c.server.workers[w]? = some .asking) :
    Stamped ⟨{ c.server with queue := c.server.queue.eraseIdx i }.setWorker w (.holding id), w :: c.late⟩ ns := by
  have lt := (List.getElem?_eq_some_iff.mp hw).1
  have prompt : w ∉ c.late := by
    intro late
    obtain ⟨x, hx⟩ := h.late w late
    cases hw.symm.trans hx
  refine ⟨fun v hv => ?_, h.clock, h.past, fun alive x u hu => ?_, fun {v q x} hv hq here => ?_, h.rows_kept rfl ?_⟩
  · rcases List.mem_cons.mp hv with same | behind
    · subst same
      exact ⟨id, List.getElem?_set_self lt⟩
    · have other : v ≠ w := by
        intro same
        exact prompt (same ▸ behind)
      obtain ⟨x, hx⟩ := h.late v behind
      exact ⟨x, (List.getElem?_set_ne (Ne.symm other)).trans hx⟩
  · refine (h.heap alive hu).keeps le_rfl (serving_set hw rfl (fun hold => by cases hold)
      (fun _ => List.mem_cons_self) fun v other => ?_)
    rw [List.mem_cons, or_iff_right other]
  · rw [List.mem_cons, not_or] at here
    rcases worker_set hv lt with ⟨same, -⟩ | ⟨-, hv⟩
    · exact absurd same here.1
    · exact h.begun hv hq here.2
  · exact passed_set hw rfl rfl fun _ => le_rfl

theorem Placement.unpassed (placed : Placement c.server) {w : Nat} (hw : c.server.workers[w]? = some (.holding id)) :
    c.server.passed id = 0 := by
  have places := placed.places id
  have once := placed.once id
  have pos := tally_pos Worker.request id (List.mem_of_getElem? hw) rfl
  have unlogged : tally Worker.logged c.server.workers id = 0 := by
    by_contra logged
    obtain ⟨q, hq, same⟩ := exists_of_tally_pos Worker.logged id (Nat.pos_of_ne_zero logged)
    obtain ⟨v, hv⟩ := List.getElem?_of_mem hq
    cases q with
    | recorded x =>
      cases same
      cases placed.worker_unique hw rfl hv rfl
      cases hw.symm.trans hv
    | _ => cases same
  unfold Server.passed
  omega

theorem Dated.stamp {c' : Clocked} {now : Nat} (h : Dated c ns id r) (clock : c.server.os.now = now)
    (past : ∀ t ∈ times ns id, 0 < t) (still : c'.server.os.now = now) (idle : ¬ c.Serving id) (serves : c'.Serving id) :
    Dated c' (ns ++ [(id, now)]) id { r with startNs := if r.startNs = 0 then now else r.startNs } where
  ids := h.ids
  arrived := by
    rw [still, ← clock]
    exact h.arrived
  after t ht := by
    rw [times_append, times_singleton] at ht
    rcases List.mem_append.mp ht with ht | ht
    · exact h.after t ht
    · rw [List.mem_singleton.mp ht, ← clock]
      exact h.arrived
  start := by
    have start := h.start
    rw [times_append, times_singleton]
    cases split : times ns id with
    | nil =>
      rw [split] at start
      change r.startNs = 0 at start
      simp [start]
    | cons t ts =>
      have pos := past t (by rw [split]; exact List.mem_cons_self)
      rw [split] at start
      change r.startNs = t at start
      have begun : r.startNs ≠ 0 := by omega
      change (if r.startNs = 0 then now else r.startNs) = t
      rw [if_neg begun, start]
  resting free := absurd serves free
  serving _ := by
    rw [times_append, times_singleton, List.length_append, ← h.resting idle]
    rfl

theorem stamp_stamped {w : Nat} (h : Stamped c ns) (placed : Placement c.server) (up : c.server.crashed = false)
    (late : w ∈ c.late) (hw : c.server.workers[w]? = some (.holding id)) (hr : c.server.heap id = some r) :
    Stamped ⟨c.server.setRequest id
      (some { r with startNs := if r.startNs = 0 then c.server.os.now else r.startNs }), c.late.filter (· ≠ w)⟩
      (ns ++ [(id, c.server.os.now)]) := by
  have mem : ∀ v, v ∈ c.late.filter (· ≠ w) ↔ v ∈ c.late ∧ v ≠ w := by simp
  have idle : ¬ c.Serving id := by
    rintro ⟨v, hv, prompt⟩
    cases placed.worker_unique hw rfl hv rfl
    exact prompt late
  refine ⟨fun v hv => h.late v ((mem v).mp hv).1, h.clock, fun {x t} hp => ?_, fun alive x u hu => ?_,
    fun {v q x} hv hq here => ?_, fun q hq => ?_⟩
  · rcases List.mem_append.mp hp with hp | hp
    · exact h.past hp
    · cases List.mem_singleton.mp hp
      have places := placed.places id
      have pos := tally_pos Worker.request id (List.mem_of_getElem? hw) rfl
      exact ⟨h.clock, le_rfl, show 0 < tally Mark.enqueue c.server.history id by omega⟩
  · change Function.update c.server.heap id _ x = some u at hu
    by_cases same : x = id
    · subst same
      rw [Function.update_self] at hu
      cases hu
      refine (h.heap up hr).stamp rfl (fun t ht => (h.past (mem_times.mp ht)).1) rfl idle ⟨w, hw, fun here => ?_⟩
      exact ((mem w).mp here).2 rfl
    · rw [Function.update_of_ne same] at hu
      have timed := h.heap up hu
      have serving : Clocked.Serving ⟨c.server.setRequest id
          (some { r with startNs := if r.startNs = 0 then c.server.os.now else r.startNs }), c.late.filter (· ≠ w)⟩ x ↔
          c.Serving x := by
        constructor
        · rintro ⟨v, hv, prompt⟩
          refine ⟨v, hv, fun here => prompt ((mem v).mpr ⟨here, ?_⟩)⟩
          rintro rfl
          cases hw.symm.trans hv
          exact same rfl
        · rintro ⟨v, hv, prompt⟩
          exact ⟨v, hv, fun here => prompt ((mem v).mp here).1⟩
      have still : times (ns ++ [(id, c.server.os.now)]) x = times ns x := by
        rw [times_append, times_other _ same, List.append_nil]
      refine ⟨timed.ids, timed.arrived, ?_, ?_, ?_, ?_⟩
      · rw [still]
        exact timed.after
      · rw [still]
        exact timed.start
      · rw [still, serving]
        exact timed.resting
      · rw [still, serving]
        exact timed.serving
  · rw [times_append]
    by_cases behind : v ∈ c.late
    · have same : v = w := by
        by_contra other
        exact here ((mem v).mpr ⟨behind, other⟩)
      subst same
      cases hw.symm.trans hv
      cases hq
      simp [times_singleton]
    · exact List.append_ne_nil_of_left_ne_nil (h.begun hv hq behind) _
  · obtain ⟨consistent, passed⟩ := h.rows q hq
    have other : q.id ≠ id := by
      intro same
      rw [same, placed.unpassed hw] at passed
      exact lt_irrefl 0 passed
    have still : times (ns ++ [(id, c.server.os.now)]) q.id = times ns q.id := by
      rw [times_append, times_other _ other, List.append_nil]
    refine ⟨⟨consistent.arrival_le, consistent.start_le, ?_, ?_⟩, passed⟩
    · rw [still]
      exact consistent.first
    · rw [still]
      exact consistent.rounds

theorem act_stamped {cfg : Config} {a : Act} {s' : Server} (h : Stamped c ns) (placed : Placement c.server)
    (free : c.free a = true) (step : LinkScheduling.step cfg a c.server = some s') : Stamped ⟨s', c.late⟩ ns := by
  have up := (step_cases step).1
  unfold LinkScheduling.step at step
  rw [if_neg (by simp [up])] at step
  cases a with
  | tick ns =>
    cases step
    exact h.still (Nat.le_add_right _ _)
  | signal =>
    cases step
    exact h.still
  | admission k => exact thread_stamped h placed step
  | work w =>
    obtain ⟨prompt, asks⟩ := of_decide_eq_true free
    exact worker_stamped h placed up prompt asks step
  | main => exact main_stamped h step
  | _ => exact acceptor_stamped h step

theorem Clocked.step_stamped {cfg : Config} {a : Turn} (h : Stamped c ns) (placed : Placement c.server)
    (step : Clocked.step cfg a c = some c') : Placement c'.server ∧ Stamped c' (ns ++ c.returns a) := by
  cases a with
  | act a =>
    simp only [Clocked.step] at step
    by_cases free : c.free a = true
    · rw [if_pos free] at step
      obtain ⟨s', goes, rfl⟩ := Option.map_eq_some_iff.mp step
      have silent : c.returns (.act a) = [] := rfl
      rw [silent, List.append_nil]
      exact ⟨placed.step (step_cases goes).2, act_stamped h placed free goes⟩
    · rw [if_neg free] at step
      cases step
  | take w =>
    simp only [Clocked.step, Clocked.take] at step
    split at step
    · rename_i asks
      obtain ⟨id, hq, rfl⟩ := Option.map_eq_some_iff.mp step
      have silent : c.returns (.take w) = [] := rfl
      rw [silent, List.append_nil]
      exact ⟨placed.take asks.2 hq, take_stamped h asks.2⟩
    · cases step
  | stamp w =>
    simp only [Clocked.step, Clocked.stamp] at step
    split at step
    · cases step
    · rename_i up
      obtain ⟨id, taken, step⟩ := Option.bind_eq_some_iff.mp step
      obtain ⟨r, hr, rfl⟩ := Option.map_eq_some_iff.mp step
      simp only [Clocked.returns, taken, Option.toList_some, List.map_cons, List.map_nil]
      unfold Clocked.taken at taken
      split at taken
      · rename_i late
        obtain ⟨x, hx⟩ := h.late w late
        rw [hx, Option.bind_some] at taken
        cases taken
        exact ⟨placed.congr, stamp_stamped h placed (by simpa using up) late hx hr⟩
      · cases taken

end Steps

theorem Clocked.run_stamped {cfg : Config} {as : List Turn} {c c' : Clocked} {ns : List (Nat × Nat)}
    (h : Stamped c ns) (placed : Placement c.server) (run : Clocked.run cfg as c = some c') :
    Stamped c' (ns ++ Clocked.nexts cfg as c) := by
  induction as generalizing c ns with
  | nil =>
    cases run
    rw [nexts, List.append_nil]
    exact h
  | cons a as ih =>
    obtain ⟨u, hu, rest⟩ := Option.bind_eq_some_iff.mp run
    obtain ⟨placed, h⟩ := Clocked.step_stamped h placed hu
    have run := ih h placed rest
    rw [nexts, hu]
    rwa [List.append_assoc] at run

end LinkScheduling
