import LinkScheduling.Advance
import LinkScheduling.Conservation
import LinkScheduling.Scheduler

/-! The order of arrival. A request is stamped on its way into the queue, and the policies go by the
queue: they respect the stamps in every run in which no admission thread is overtaken between its
stamp and its enqueue, and in no other way. -/

namespace LinkScheduling
open Effect Pools

namespace Server

def enters (a : Act) (s : Server) : Option Nat :=
  match a with
  | .admission k =>
    match s.threads[k]? with
    | some ⟨_, .enqueuing id⟩ => some id
    | _ => none
  | _ => none

def picks (cfg : Config) (a : Act) (s : Server) : Option Nat :=
  match a with
  | .work w =>
    match s.workers[w]? with
    | some .asking => s.queue[pick cfg.sp.policy s.sizes]?
    | _ => none
  | _ => none

def arrival (s : Server) (id : Nat) : Nat := ((s.heap id).map Request.arrivalNs).getD 0

def size (s : Server) (id : Nat) : UInt64 := ((s.heap id).map Request.bytes).getD 0

section Fields
variable (s : Server) {α : Type} (o : Outcome Fault Os Event α) (k id : Nat)

@[simp] theorem queue_after : (s.after o).queue = s.queue := rfl
@[simp] theorem queue_crash : s.crash.queue = s.queue := rfl
@[simp] theorem queue_mark (ms : List Mark) : (s.mark ms).queue = s.queue := rfl
@[simp] theorem queue_setPhase (fd : Int) (p : Phase) : (s.setPhase k fd p).queue = s.queue := rfl
@[simp] theorem queue_setWorker (p : Worker) : (s.setWorker k p).queue = s.queue := rfl
@[simp] theorem queue_setRequest (r : Option Request) : (s.setRequest id r).queue = s.queue := rfl
@[simp] theorem queue_afterSlice (o : Round) : (s.afterSlice id o).queue = s.queue := rfl
@[simp] theorem queue_released (o : Outcome Fault Job Event Unit) : (s.released id o).queue = s.queue := rfl

theorem queue_readDone (fd : Int) (o : Outcome Fault Os Event HeaderReadResult) :
    (s.readDone k fd o).queue = s.queue := by
  rcases readDone_cases s k fd o with ⟨hdr, -, done⟩ | ⟨e, -, done⟩ <;> simp [done]

theorem queue_openDone (fd : Int) (r : Request) (o : Outcome Fault Os Event (Option (Int × UInt64))) :
    (s.openDone k fd id r o).queue = s.queue := by
  rcases openDone_cases s k fd id r o with ⟨n, size, -, done⟩ | ⟨-, done⟩ | ⟨e, -, done⟩ <;> simp [done]

theorem queue_sliceDone (o : Round) : (s.sliceDone k id o).queue = s.queue := by
  rcases sliceDone_cases s k id o with ⟨-, done⟩ | ⟨res, -, -, done⟩ | ⟨e, -, done⟩ <;> simp [done]

end Fields

theorem sizes_eq (s : Server) : s.sizes = s.queue.map s.size := rfl

end Server

def trail (cfg : Config) : List Act → Server → List (Act × Server)
  | [], _ => []
  | a :: as, s => (a, s) ::
    match step cfg a s with
    | some s' => trail cfg as s'
    | none => []

/-- The stamps of the requests in the order in which they entered the queue. -/
def enteredNs (cfg : Config) (as : List Act) (s : Server) : List Nat :=
  (trail cfg as s).filterMap fun x => (x.2.enters x.1).map x.2.arrival

/-- The stamps of the requests in the order in which the workers took them. -/
def pickedNs (cfg : Config) (as : List Act) (s : Server) : List Nat :=
  (trail cfg as s).filterMap fun x => (x.2.picks cfg x.1).map x.2.arrival

theorem trail_cons {cfg : Config} {a : Act} {as : List Act} {s s' : Server} (h : step cfg a s = some s') :
    trail cfg (a :: as) s = (a, s) :: trail cfg as s' := by
  simp [trail, h]

theorem trail_induction {cfg : Config} {P : Server → Prop} {as : List Act} {s : Server}
    (keeps : ∀ x ∈ trail cfg as s, ∀ s', P x.2 → step cfg x.1 x.2 = some s' → P s') (start : P s) :
    ∀ x ∈ trail cfg as s, P x.2 := by
  induction as generalizing s with
  | nil => exact fun x hx => absurd hx List.not_mem_nil
  | cons a as ih =>
    intro x hx
    rcases List.mem_cons.mp hx with rfl | hx
    · exact start
    · cases hstep : step cfg a s with
      | none => simp [hstep] at hx
      | some s' =>
        rw [trail_cons hstep] at keeps
        simp only [hstep] at hx
        exact ih (fun y hy => keeps y (List.mem_cons_of_mem _ hy))
          (keeps _ List.mem_cons_self s' start hstep) x hx

def Unpreempted (s : Server) : Prop := ∀ id, .preempted id ∉ s.workers

theorem Unpreempted.set {s : Server} (h : Unpreempted s) {w : Nat} {p : Worker} (hp : ∀ id, p ≠ .preempted id) :
    ∀ id, .preempted id ∉ s.workers.set w p := by
  intro id mem
  rcases List.mem_or_eq_of_mem_set mem with mem | eq
  · exact h id mem
  · exact hp id eq.symm

theorem Unpreempted.step {cfg : Config} (free : bounded cfg.sp.policy = false) {s s' : Server}
    (h : Unpreempted s) (step : Step cfg s s') : Unpreempted s' := by
  cases step with
  | workerExits => exact h.set fun _ => Worker.noConfusion
  | next => exact h.set fun _ => Worker.noConfusion
  | preempt hw hr ho hv =>
    subst ho
    exact absurd rfl (serveOrReport_ends free _ _ hv)
  | serve => exact h.set fun _ => Worker.noConfusion
  | requeue => exact h.set fun _ => Worker.noConfusion
  | record => exact h.set fun _ => Worker.noConfusion
  | release => exact h.set fun _ => Worker.noConfusion
  | _ => exact h

/-- A step puts one request behind the queue, or takes the picked one from it, or leaves it. -/
inductive QueueStep (cfg : Config) (a : Act) (s s' : Server) : Prop
  | enters (id : Nat) : s.enters a = some id → s.picks cfg a = none → s'.queue = s.queue ++ [id] →
      s'.heap = s.heap → QueueStep cfg a s s'
  | picks (id : Nat) : s.enters a = none → s.picks cfg a = some id →
      s'.queue = s.queue.eraseIdx (pick cfg.sp.policy s.sizes) → QueueStep cfg a s s'
  | stays : s.enters a = none → s.picks cfg a = none → s'.queue = s.queue → QueueStep cfg a s s'

theorem enters_none {s : Server} {k : Nat} {t : Thread} (hk : s.threads[k]? = some t)
    (h : ∀ id, t.phase ≠ .enqueuing id) : s.enters (.admission k) = none := by
  obtain ⟨fd, phase⟩ := t
  simp only [Server.enters, hk]
  cases phase with
  | enqueuing id => exact absurd rfl (h id)
  | _ => rfl

theorem picks_none {cfg : Config} {s : Server} {w : Nat} {p : Worker} (hw : s.workers[w]? = some p)
    (h : p ≠ .asking) : s.picks cfg (.work w) = none := by
  simp only [Server.picks, hw]
  cases p with
  | asking => exact absurd rfl h
  | _ => rfl

theorem threadStep_queue {cfg : Config} {k : Nat} {s s' : Server} (h : threadStep cfg k s = some s') :
    QueueStep cfg (.admission k) s s' := by
  unfold threadStep at h
  cases hk : s.threads[k]? with
  | none => simp [hk] at h
  | some thread =>
    obtain ⟨fd, phase⟩ := thread
    simp only [hk] at h
    have other : (∀ id, phase ≠ .enqueuing id) → s'.queue = s.queue → QueueStep cfg (.admission k) s s' :=
      fun hp queue => .stays (enters_none hk hp) rfl queue
    cases phase with
    | enqueuing id =>
      cases h
      exact .enters id (by simp [Server.enters, hk]) rfl rfl rfl
    | reading =>
      refine other (fun _ => Phase.noConfusion) ?_
      exact (congrArg Server.queue (Option.some.inj h)).symm.trans (Server.queue_readDone ..)
    | opening id =>
      refine other (fun _ => Phase.noConfusion) ?_
      obtain ⟨r, -, rfl⟩ := Option.map_eq_some_iff.mp h
      exact Server.queue_openDone ..
    | stamping id =>
      refine other (fun _ => Phase.noConfusion) ?_
      obtain ⟨r, -, rfl⟩ := Option.map_eq_some_iff.mp h
      rfl
    | answering reply =>
      refine other (fun _ => Phase.noConfusion) ?_
      cases h
      simp
    | gone => cases h
    | _ =>
      refine other (fun _ => Phase.noConfusion) ?_
      cases h
      rfl

theorem workerStep_queue {cfg : Config} {w : Nat} {s s' : Server} (unpreempted : Unpreempted s)
    (h : workerStep cfg w s = some s') : QueueStep cfg (.work w) s s' := by
  unfold workerStep at h
  cases hw : s.workers[w]? with
  | none => simp [hw] at h
  | some worker =>
    simp only [hw] at h
    have other : worker ≠ .asking → s'.queue = s.queue → QueueStep cfg (.work w) s s' :=
      fun hp queue => .stays rfl (picks_none hw hp) queue
    cases worker with
    | asking =>
      by_cases hq : s.queue = []
      · refine .stays rfl (by simp [Server.picks, hw, hq]) ?_
        simp only [if_pos hq] at h
        split at h
        · cases h
          rfl
        · cases h
      · simp only [if_neg hq] at h
        obtain ⟨id, hid, h⟩ := Option.bind_eq_some_iff.mp h
        obtain ⟨r, hr, rfl⟩ := Option.map_eq_some_iff.mp h
        exact .picks id rfl (by simp [Server.picks, hw, hid]) rfl
    | holding id =>
      refine other Worker.noConfusion ?_
      obtain ⟨r, -, rfl⟩ := Option.map_eq_some_iff.mp h
      exact Server.queue_sliceDone ..
    | preempted id => exact absurd (List.mem_of_getElem? hw) (unpreempted id)
    | served id res =>
      refine other Worker.noConfusion ?_
      obtain ⟨r, -, rfl⟩ := Option.map_eq_some_iff.mp h
      rfl
    | recorded id =>
      refine other Worker.noConfusion ?_
      obtain ⟨r, -, rfl⟩ := Option.map_eq_some_iff.mp h
      simp
    | exited => cases h

theorem mainStep_queue {s s' : Server} (h : mainStep s = some s') : s'.queue = s.queue := by
  unfold mainStep at h
  cases hm : s.main <;> simp only [hm] at h
  all_goals first | (cases h; rfl) | (split at h <;> cases h <;> rfl) | cases h

theorem acceptorStep_queue {a : Act} {s s' : Server} (h : acceptorStep a s = some s') :
    s'.queue = s.queue := by
  unfold acceptorStep at h
  split at h
  · split at h
    · cases h
      rfl
    · cases h
  · cases h
    split <;> rfl
  · cases h
    rfl
  · cases h
    rfl
  · cases h
    rfl
  · cases h
    rfl
  · cases h

theorem step_queue {cfg : Config} {a : Act} {s s' : Server} (unpreempted : Unpreempted s)
    (h : step cfg a s = some s') : QueueStep cfg a s s' := by
  unfold step at h
  split at h
  · cases h
  · cases a with
    | admission k => exact threadStep_queue h
    | work w => exact workerStep_queue unpreempted h
    | main => exact .stays rfl rfl (mainStep_queue h)
    | tick ns =>
      cases h
      exact .stays rfl rfl rfl
    | signal =>
      cases h
      exact .stays rfl rfl rfl
    | _ => exact .stays rfl rfl (acceptorStep_queue h)

theorem Placement.waiting {s : Server} (h : Placement s) {id : Nat} (hid : id ∈ s.queue) :
    (∀ t ∈ s.threads, t.request ≠ some id) ∧ (∀ p ∈ s.workers, p.request ≠ some id) ∧ id < s.nextId := by
  have queued := tally_pos some id hid rfl
  have places := h.places id
  have once := h.once id
  refine ⟨fun t ht hr => ?_, fun p hp hr => ?_, ?_⟩
  · have := tally_pos Thread.request id ht hr
    omega
  · have := tally_pos Worker.request id hp hr
    omega
  · by_contra hge
    have := h.fresh id (by omega)
    omega

theorem Placement.unchanged {cfg : Config} {s s' : Server} (h : Placement s) (step : Step cfg s s') {id : Nat}
    (hid : id ∈ s.queue) : s'.arrival id = s.arrival id ∧ s'.size id = s.size id := by
  obtain ⟨threads, workers, old⟩ := h.waiting hid
  have other : ∀ x r, id ≠ x → s'.heap = Function.update s.heap x r →
      s'.arrival id = s.arrival id ∧ s'.size id = s.size id := by
    intro x r hx heap
    unfold Server.arrival Server.size
    rw [heap, Function.update_of_ne hx]
    exact ⟨rfl, rfl⟩
  have thread : ∀ {k : Nat} {t : Thread} {x : Nat}, s.threads[k]? = some t → t.request = some x → id ≠ x := by
    rintro k t x hk hx rfl
    exact threads t (List.mem_of_getElem? hk) hx
  have worker : ∀ {w : Nat} {p : Worker} {x : Nat}, s.workers[w]? = some p → p.request = some x → id ≠ x := by
    rintro w p x hw hx rfl
    exact workers p (List.mem_of_getElem? hw) hx
  cases step with
  | number hk hr => exact other _ _ (by omega) rfl
  | stamp hk hr => exact other _ _ (thread hk rfl) rfl
  | opened hk hr => exact other _ _ (thread hk rfl) rfl
  | notFound hk => exact other _ _ (thread hk rfl) rfl
  | @next w i x r hw hi hq hr =>
    by_cases hx : id = x
    · subst hx
      constructor <;> simp [Server.arrival, Server.size, Server.setWorker, Server.setRequest, hr]
    · exact other _ _ hx rfl
  | preempt hw => exact other _ _ (worker hw rfl) rfl
  | serve hw => exact other _ _ (worker hw rfl) rfl
  | sliceCrash hw => exact other _ _ (worker hw rfl) rfl
  | record hw => exact other _ _ (worker hw rfl) rfl
  | release hw => exact other _ _ (worker hw rfl) rfl
  | _ => exact ⟨rfl, rfl⟩

theorem picked_eq {cfg : Config} {a : Act} {s : Server} {id : Nat} (h : s.picks cfg a = some id) :
    s.queue[pick cfg.sp.policy s.sizes]? = some id := by
  unfold Server.picks at h
  split at h
  · split at h
    · exact h
    · cases h
  · cases h

theorem trail_fcfs {cfg : Config} (fcfs : cfg.sp.policy = .fcfs) {as : List Act} {s s' : Server}
    (placed : Placement s) (unpreempted : Unpreempted s) (h : run cfg as s = some s') :
    s.queue.map s.arrival ++ enteredNs cfg as s = pickedNs cfg as s ++ s'.queue.map s'.arrival := by
  have free : bounded cfg.sp.policy = false := by rw [fcfs]; rfl
  induction as generalizing s with
  | nil =>
    cases h
    simp [enteredNs, pickedNs, trail]
  | cons a as ih =>
    obtain ⟨t, ht, rest⟩ := Option.bind_eq_some_iff.mp h
    have moved := (step_cases ht).2
    have order := ih (placed.step moved) (unpreempted.step free moved) rest
    unfold enteredNs pickedNs at order ⊢
    rw [trail_cons ht, List.filterMap_cons, List.filterMap_cons]
    have kept : ∀ id ∈ s.queue, t.arrival id = s.arrival id := fun id hid => (placed.unchanged moved hid).1
    cases step_queue unpreempted ht with
    | enters id hin hout queue heap =>
      have same : t.arrival = s.arrival := by
        funext x
        unfold Server.arrival
        rw [heap]
      rw [queue, same] at order
      simpa [hin, hout] using order
    | picks id hin hout queue =>
      have first : s.queue[0]? = some id := by
        rw [← picked_eq hout, pick, if_neg (by rw [fcfs]; exact Policy.noConfusion)]
      obtain ⟨rest, split⟩ := List.head?_eq_some_iff.mp (List.head?_eq_getElem? ▸ first)
      rw [pick, if_neg (by rw [fcfs]; exact Policy.noConfusion), split, List.eraseIdx_cons_zero] at queue
      rw [split] at kept ⊢
      rw [queue, List.map_congr_left fun x hx => kept x (List.mem_cons_of_mem _ hx)] at order
      simpa [hin, hout] using order
    | stays hin hout queue =>
      rw [queue, List.map_congr_left kept] at order
      simpa [hin, hout] using order

/-- Of two waiting requests of one size the one in front was stamped first. -/
def TiesInOrder (s : Server) : Prop :=
  s.queue.Pairwise fun x y => s.size x = s.size y → s.arrival x ≤ s.arrival y

/-- A request that enters the queue is not older than the waiting requests of its size. -/
def TieInTurn (a : Act) (s : Server) : Prop :=
  ∀ id, s.enters a = some id → ∀ x ∈ s.queue, s.size x = s.size id → s.arrival x ≤ s.arrival id

theorem TiesInOrder.congr {s s' : Server} (h : TiesInOrder s) (queue : s'.queue.Sublist s.queue)
    (same : ∀ id ∈ s.queue, s'.arrival id = s.arrival id ∧ s'.size id = s.size id) : TiesInOrder s' := by
  refine (List.Pairwise.sublist queue h).imp_of_mem fun {x y} hx hy order size => ?_
  have kx := same x (queue.subset hx)
  have ky := same y (queue.subset hy)
  rw [kx.1, ky.1]
  exact order (by rw [← kx.2, ← ky.2, size])

theorem TiesInOrder.step {cfg : Config} {a : Act} {s s' : Server} (h : TiesInOrder s) (placed : Placement s)
    (unpreempted : Unpreempted s) (inTurn : TieInTurn a s) (hs : step cfg a s = some s') : TiesInOrder s' := by
  have kept := fun id (hid : id ∈ s.queue) => placed.unchanged (step_cases hs).2 hid
  cases step_queue unpreempted hs with
  | enters id hin hout queue heap =>
    have arrival : s'.arrival = s.arrival := funext fun x => by simp only [Server.arrival, heap]
    have size : s'.size = s.size := funext fun x => by simp only [Server.size, heap]
    unfold TiesInOrder
    rw [queue, arrival, size]
    refine List.pairwise_append.mpr ⟨h, List.pairwise_singleton _ _, fun x hx y hy same => ?_⟩
    rw [List.mem_singleton.mp hy] at same ⊢
    exact inTurn id hin x hx same
  | picks id hin hout queue => exact h.congr (queue ▸ List.eraseIdx_sublist _ _) kept
  | stays hin hout queue => exact h.congr (queue ▸ List.Sublist.refl _) kept

theorem TiesInOrder.picked {cfg : Config} (sjf : cfg.sp.policy = .sjf) {a : Act} {s : Server}
    (h : TiesInOrder s) {id : Nat} (hid : s.picks cfg a = some id) {x : Nat} (hx : x ∈ s.queue)
    (size : s.size x = s.size id) : s.arrival id ≤ s.arrival x := by
  have picked := picked_eq hid
  rw [pick, if_pos sjf, s.sizes_eq] at picked
  obtain ⟨-, least⟩ := Scheduler.sjfPick_spec (List.map_eq_nil_iff.not.mpr (List.ne_nil_of_mem hx) : s.queue.map s.size ≠ [])
  generalize sjfPick (s.queue.map s.size) = i at picked least
  obtain ⟨lt, rfl⟩ := List.getElem?_eq_some_iff.mp picked
  obtain ⟨j, hj, rfl⟩ := List.mem_iff_getElem.mp hx
  rcases Nat.lt_trichotomy i j with behind | same | before
  · exact List.pairwise_iff_getElem.mp h i j lt hj behind size.symm
  · subst same
    exact le_rfl
  · have strict := (least j (by simpa using hj)).2 before
    simp [List.getD_eq_getElem?_getD, lt, hj, size] at strict

theorem Unpreempted.start (os : Os) (threads : Nat) : Unpreempted (.start os threads) :=
  fun _ mem => Worker.noConfusion (List.eq_of_mem_replicate mem)

/-- A run of `fcfs` takes the requests in the order of their stamps if they enter the queue in this
order, and a run of `sjf` takes the requests of one size in the order of their stamps if none enters
behind a younger one of its size. -/
theorem run_respects_arrivals {cfg : Config} {os : Os} {threads : Nat} {as : List Act} {s : Server}
    (h : run cfg as (.start os threads) = some s) :
    (cfg.sp.policy = .fcfs → (enteredNs cfg as (.start os threads)).Pairwise (· ≤ ·) →
      (pickedNs cfg as (.start os threads)).Pairwise (· ≤ ·)) ∧
    (cfg.sp.policy = .sjf → (∀ x ∈ trail cfg as (.start os threads), TieInTurn x.1 x.2) →
      ∀ x ∈ trail cfg as (.start os threads), ∀ id, x.2.picks cfg x.1 = some id → ∀ y ∈ x.2.queue,
        x.2.size y = x.2.size id → x.2.arrival id ≤ x.2.arrival y) := by
  refine ⟨fun fcfs inOrder => ?_, fun sjf inTurn x hx id hid y hy size => ?_⟩
  · have order := trail_fcfs fcfs (Placement.start os threads) (Unpreempted.start os threads) h
    rw [show (Server.start os threads).queue = [] from rfl, List.map_nil, List.nil_append] at order
    exact (List.pairwise_append.mp (order ▸ inOrder)).1
  · have free : bounded cfg.sp.policy = false := by rw [sjf]; rfl
    have good := trail_induction (P := fun s => Placement s ∧ Unpreempted s ∧ TiesInOrder s)
      (fun x hx s' hP hs => ⟨hP.1.step (step_cases hs).2, hP.2.1.step free (step_cases hs).2,
        hP.2.2.step hP.1 hP.2.1 (inTurn x hx) hs⟩)
      ⟨Placement.start os threads, Unpreempted.start os threads, List.Pairwise.nil⟩ x hx
    exact good.2.2.picked sjf hid hy size

theorem picked_any {cfg : Config} {as : List Act} {s : Server} {p : Act × Server → Nat → Nat → Bool}
    (h : ((trail cfg as s).any fun x => (x.2.picks cfg x.1).any fun id => x.2.queue.any fun y => p x id y) = true) :
    ∃ x ∈ trail cfg as s, ∃ id, x.2.picks cfg x.1 = some id ∧ ∃ y ∈ x.2.queue, p x id y = true := by
  obtain ⟨x, hx, hid⟩ := List.any_eq_true.mp h
  obtain ⟨id, picks, hy⟩ := (Option.any_eq_true _ _).mp hid
  exact ⟨x, hx, id, picks, List.any_eq_true.mp hy⟩

def twoUploads : Os := { Os.start (Files.single [103] []) [] with peer := fun _ _ => ascii "PUT f 1\nx" }

def twoWorkers (p : Policy) : Config := { fileDir := [100], sp := { policy := p } }

def bothStamped : List Act :=
  [.accept, .count, .spawn, .accept, .count, .spawn, .admission 0, .admission 1, .admission 0, .admission 1, .admission 0, .tick 3,
    .admission 1]

def prompt : List Act := bothStamped ++ [.admission 0, .admission 1, .work 0, .work 1]

theorem run_respects_arrivals_prompt :
    (∃ s, run (twoWorkers .fcfs) prompt (.start twoUploads 2) = some s ∧
      (pickedNs (twoWorkers .fcfs) prompt (.start twoUploads 2)).Pairwise (· ≤ ·)) ∧
    ∃ s, run (twoWorkers .sjf) prompt (.start twoUploads 2) = some s ∧
      ∃ x ∈ trail (twoWorkers .sjf) prompt (.start twoUploads 2), ∃ id, x.2.picks (twoWorkers .sjf) x.1 = some id ∧
        ∃ y ∈ x.2.queue, y ≠ id ∧ x.2.size y = x.2.size id ∧ x.2.arrival id ≤ x.2.arrival y := by
  have fcfs : (run (twoWorkers .fcfs) prompt (.start twoUploads 2)).isSome = true := by decide +kernel
  have sjf : (run (twoWorkers .sjf) prompt (.start twoUploads 2)).isSome = true := by decide +kernel
  have entered : enteredNs (twoWorkers .fcfs) prompt (.start twoUploads 2) = [0, 3] := by decide +kernel
  have inTurn : (trail (twoWorkers .sjf) prompt (.start twoUploads 2)).all (fun x => (x.2.enters x.1).all fun id =>
      x.2.queue.all fun y => x.2.size y = x.2.size id → x.2.arrival y ≤ x.2.arrival id) = true := by decide +kernel
  have tie : (trail (twoWorkers .sjf) prompt (.start twoUploads 2)).any (fun x =>
      (x.2.picks (twoWorkers .sjf) x.1).any fun id => x.2.queue.any fun y => y ≠ id ∧ x.2.size y = x.2.size id) = true := by
    decide +kernel
  obtain ⟨s, hs⟩ := Option.isSome_iff_exists.mp fcfs
  obtain ⟨s', hs'⟩ := Option.isSome_iff_exists.mp sjf
  refine ⟨⟨s, hs, (run_respects_arrivals hs).1 rfl (entered ▸ by decide)⟩, s', hs', ?_⟩
  obtain ⟨x, hx, id, picks, y, hy, same⟩ := picked_any tie
  obtain ⟨other, size⟩ := of_decide_eq_true same
  refine ⟨x, hx, id, picks, y, hy, other, size, (run_respects_arrivals hs').2 rfl ?_ x hx id picks y hy size⟩
  intro x hx id enters y hy
  have all := List.all_eq_true.mp inTurn x hx
  rw [enters, Option.all_some] at all
  exact of_decide_eq_true (List.all_eq_true.mp all y hy)

def overtaken : List Act := bothStamped ++ [.admission 1, .admission 0, .work 0, .work 1]

theorem run_disrespects_arrivals :
    (∃ s, run (twoWorkers .fcfs) overtaken (.start twoUploads 2) = some s ∧
      ¬ (pickedNs (twoWorkers .fcfs) overtaken (.start twoUploads 2)).Pairwise (· ≤ ·)) ∧
    ∃ s, run (twoWorkers .sjf) overtaken (.start twoUploads 2) = some s ∧
      ∃ x ∈ trail (twoWorkers .sjf) overtaken (.start twoUploads 2), ∃ id,
        x.2.picks (twoWorkers .sjf) x.1 = some id ∧
        ∃ y ∈ x.2.queue, x.2.size y = x.2.size id ∧ x.2.arrival y < x.2.arrival id := by
  have fcfs : (run (twoWorkers .fcfs) overtaken (.start twoUploads 2)).isSome = true := by decide +kernel
  have sjf : (run (twoWorkers .sjf) overtaken (.start twoUploads 2)).isSome = true := by decide +kernel
  have picked : pickedNs (twoWorkers .fcfs) overtaken (.start twoUploads 2) = [3, 0] := by decide +kernel
  have younger : (trail (twoWorkers .sjf) overtaken (.start twoUploads 2)).any (fun x =>
      (x.2.picks (twoWorkers .sjf) x.1).any fun id =>
        x.2.queue.any fun y => x.2.size y = x.2.size id ∧ x.2.arrival y < x.2.arrival id) = true := by
    decide +kernel
  obtain ⟨s, hs⟩ := Option.isSome_iff_exists.mp fcfs
  obtain ⟨s', hs'⟩ := Option.isSome_iff_exists.mp sjf
  refine ⟨⟨s, hs, picked ▸ by decide⟩, s', hs', ?_⟩
  obtain ⟨x, hx, id, picks, y, hy, h⟩ := picked_any younger
  exact ⟨x, hx, id, picks, y, hy, of_decide_eq_true h⟩

end LinkScheduling
