import LinkScheduling.Fifo
import LinkScheduling.Server

/-! A scheduler as its threads share it, after `queue.h` and the four `scheduler_*.cpp`: the mutex,
the condition variable, the queue, and any number of threads that call `enqueue`, `requeue`,
`next`, `queue_depth` and `shutdown`. A step is one move of one thread; what a thread does to the
queue takes it three moves, to get the lock, to use it and to give it back. -/

namespace LinkScheduling

inductive Pc
  | outside
  | pushing (r : Nat)
  | appending (r : Nat)
  | appended
  | notifying
  | popping
  | testing
  | waiting
  | chosen (i : Nat)
  | erased (req : Option Nat)
  | stamping (req : Option Nat)
  | measuring
  | counting
  | stopping
  | flagging
  | flagged
  | notifyingAll
  deriving DecidableEq

namespace Pc

def granted : Pc → Option Pc
  | pushing r => some (appending r)
  | popping => some testing
  | measuring => some counting
  | stopping => some flagging
  | outside | appending _ | appended | notifying | testing | waiting | chosen _ | erased _ | stamping _
  | counting | flagging | flagged | notifyingAll => none

def locked : Pc → Bool
  | appending _ | appended | testing | chosen _ | erased _ | counting | flagging | flagged => true
  | outside | pushing _ | notifying | popping | waiting | stamping _ | measuring | stopping
  | notifyingAll => false

def enters : Pc → Option Nat
  | pushing r | appending r => some r
  | outside | appended | notifying | popping | testing | waiting | chosen _ | erased _ | stamping _
  | measuring | counting | stopping | flagging | flagged | notifyingAll => none

def leaves : Pc → Option Nat
  | erased req | stamping req => req
  | outside | pushing _ | appending _ | appended | notifying | popping | testing | waiting | chosen _
  | measuring | counting | stopping | flagging | flagged | notifyingAll => none

theorem granted_locked {pc pc' : Pc} (h : pc.granted = some pc') :
    pc.locked = false ∧ pc'.locked = true := by
  cases pc <;> cases h <;> exact ⟨rfl, rfl⟩

theorem granted_enters {pc pc' : Pc} (h : pc.granted = some pc') : pc'.enters = pc.enters := by
  cases pc <;> cases h <;> rfl

theorem granted_leaves {pc pc' : Pc} (h : pc.granted = some pc') : pc'.leaves = none := by
  cases pc <;> cases h <;> rfl

theorem granted_ne_chosen {pc pc' : Pc} (h : pc.granted = some pc') (i : Nat) : pc' ≠ chosen i := by
  cases pc <;> cases h <;> exact Pc.noConfusion

/-- A push whose `notify_one` has not been called yet. -/
def owesNotify : Pc → Bool
  | appended | notifying => true
  | outside | pushing _ | appending _ | popping | testing | waiting | chosen _ | erased _ | stamping _
  | measuring | counting | stopping | flagging | flagged | notifyingAll => false

def owesNotifyAll : Pc → Bool
  | flagged | notifyingAll => true
  | outside | pushing _ | appending _ | appended | notifying | popping | testing | waiting | chosen _
  | erased _ | stamping _ | measuring | counting | stopping | flagging => false

end Pc

inductive Place
  | fresh
  | entering (t : Nat)
  | pending
  | leaving (t : Nat)
  | held
  deriving DecidableEq

inductive Note
  | pushed (r : Nat)
  | popped (r : Nat)
  | returned (r : Nat) (now : Nat)
  | shutDown
  deriving DecidableEq

structure Scheduler where
  now : Nat
  mutex : Option Nat := none
  items : List Nat := []
  shuttingDown : Bool := false
  threads : Nat → Pc := fun _ => .outside
  place : Nat → Place := fun _ => .fresh
  startNs : Nat → Nat := fun _ => 0
  history : List Note := []

/-- What every thread can see of the scheduler: its policy, how many of the threads are workers,
and the declared sizes of the requests. -/
structure Plan where
  policy : Policy
  workers : Nat
  bytes : Nat → UInt64

/-- The moves of the threads. Only a worker calls `next`; a request is enqueued once, and requeued
by who got it from `next`. -/
inductive Move
  | tick (ns : Nat)
  | enqueue (t r : Nat)
  | requeue (t r : Nat)
  | next (t : Nat)
  | queueDepth (t : Nat)
  | shutdown (t : Nat)
  | lock (t : Nat)
  | go (t : Nat)
  | notifyOne (t : Nat) (waiter : Option Nat)
  | wake (t : Nat)
  deriving DecidableEq

def Move.requeues : Move → Bool
  | .requeue _ _ => true
  | _ => false

namespace Scheduler

def start (now : Nat) : Scheduler := { now := now }

def goTo (s : Scheduler) (t : Nat) (pc : Pc) : Scheduler :=
  { s with threads := Function.update s.threads t pc }

def put (s : Scheduler) (r : Nat) (p : Place) : Scheduler :=
  { s with place := Function.update s.place r p }

def note (s : Scheduler) (n : Note) : Scheduler := { s with history := s.history ++ [n] }

def call (s : Scheduler) (t : Nat) (pc : Pc) : Option Scheduler :=
  if s.threads t = .outside then some (s.goTo t pc) else none

def stamp (s : Scheduler) (t r : Nat) : Scheduler :=
  (({ s with startNs := Function.update s.startNs r (if s.startNs r = 0 then s.now else s.startNs r) }.put r
    .held).goTo t .outside).note (.returned r s.now)

/-- The move of a thread inside a call, other than to get the mutex and to notify one. -/
def go (c : Plan) (t : Nat) (s : Scheduler) : Option Scheduler :=
  match s.threads t with
  | .appending r => some ((({ s with items := s.items ++ [r] }.put r .pending).goTo t .appended).note (.pushed r))
  | .appended => some ({ s with mutex := none }.goTo t .notifying)
  | .testing =>
    if s.items = [] then
      if s.shuttingDown then some (s.goTo t (.erased none)) else some ({ s with mutex := none }.goTo t .waiting)
    else some (s.goTo t (.chosen (pick c.policy (s.items.map c.bytes))))
  | .chosen i => (s.items[i]?).map fun r =>
    (({ s with items := s.items.eraseIdx i }.put r (.leaving t)).goTo t (.erased (some r))).note (.popped r)
  | .erased req => some ({ s with mutex := none }.goTo t (.stamping req))
  | .stamping none => some (s.goTo t .outside)
  | .stamping (some r) => some (s.stamp t r)
  | .counting => some ({ s with mutex := none }.goTo t .outside)
  | .flagging => some ({ s with shuttingDown := true }.goTo t .flagged)
  | .flagged => some ({ s with mutex := none }.goTo t .notifyingAll)
  | .notifyingAll => some (({ s with
      threads := fun v => if s.threads v = Pc.waiting then .popping else s.threads v }.goTo t .outside).note
      .shutDown)
  | _ => none

def step (c : Plan) (m : Move) (s : Scheduler) : Option Scheduler :=
  match m with
  | .tick ns => some { s with now := s.now + ns }
  | .enqueue t r => if s.place r = .fresh then (s.put r (.entering t)).call t (.pushing r) else none
  | .requeue t r => if s.place r = .held then (s.put r (.entering t)).call t (.pushing r) else none
  | .next t => if t < c.workers then s.call t .popping else none
  | .queueDepth t => s.call t .measuring
  | .shutdown t => s.call t .stopping
  | .lock t => if s.mutex = none then
      (s.threads t).granted.map fun pc => { s with mutex := some t }.goTo t pc
    else none
  | .go t => go c t s
  | .notifyOne t (some v) =>
    if s.threads t = .notifying ∧ s.threads v = .waiting then some ((s.goTo v .popping).goTo t .outside)
    else none
  | .notifyOne t none =>
    if s.threads t = .notifying ∧ ∀ v < c.workers, s.threads v ≠ Pc.waiting then some (s.goTo t .outside)
    else none
  | .wake t => if s.threads t = .waiting then some (s.goTo t .popping) else none

def run (c : Plan) : List Move → Scheduler → Option Scheduler
  | [], s => some s
  | m :: ms, s => (step c m s).bind (run c ms)

inductive Moved (c : Plan) (s : Scheduler) : Move → Scheduler → Prop
  | tick (ns : Nat) : Moved c s (.tick ns) { s with now := s.now + ns }
  | enqueue {t r : Nat} : s.threads t = .outside → s.place r = .fresh →
      Moved c s (.enqueue t r) ((s.put r (.entering t)).goTo t (.pushing r))
  | requeue {t r : Nat} : s.threads t = .outside → s.place r = .held →
      Moved c s (.requeue t r) ((s.put r (.entering t)).goTo t (.pushing r))
  | next {t : Nat} : s.threads t = .outside → t < c.workers → Moved c s (.next t) (s.goTo t .popping)
  | queueDepth {t : Nat} : s.threads t = .outside → Moved c s (.queueDepth t) (s.goTo t .measuring)
  | shutdown {t : Nat} : s.threads t = .outside → Moved c s (.shutdown t) (s.goTo t .stopping)
  | lock {t : Nat} {pc : Pc} : s.mutex = none → (s.threads t).granted = some pc →
      Moved c s (.lock t) ({ s with mutex := some t }.goTo t pc)
  | append {t r : Nat} : s.threads t = .appending r → Moved c s (.go t)
      ((({ s with items := s.items ++ [r] }.put r .pending).goTo t .appended).note (.pushed r))
  | unlock {t : Nat} {pc pc' : Pc} : s.threads t = pc →
      (pc = .appended ∧ pc' = .notifying ∨ pc = .counting ∧ pc' = .outside ∨
        pc = .flagged ∧ pc' = .notifyingAll ∨ ∃ req, pc = .erased req ∧ pc' = .stamping req) →
      Moved c s (.go t) ({ s with mutex := none }.goTo t pc')
  | giveUp {t : Nat} : s.threads t = .testing → s.items = [] → s.shuttingDown = true →
      Moved c s (.go t) (s.goTo t (.erased none))
  | wait {t : Nat} : s.threads t = .testing → s.items = [] → s.shuttingDown = false →
      Moved c s (.go t) ({ s with mutex := none }.goTo t .waiting)
  | choose {t : Nat} : s.threads t = .testing → s.items ≠ [] →
      Moved c s (.go t) (s.goTo t (.chosen (pick c.policy (s.items.map c.bytes))))
  | erase {t i r : Nat} : s.threads t = .chosen i → s.items[i]? = some r → Moved c s (.go t)
      ((({ s with items := s.items.eraseIdx i }.put r (.leaving t)).goTo t (.erased (some r))).note (.popped r))
  | returnNull {t : Nat} : s.threads t = .stamping none → Moved c s (.go t) (s.goTo t .outside)
  | stamp {t r : Nat} : s.threads t = .stamping (some r) → Moved c s (.go t) (s.stamp t r)
  | flag {t : Nat} : s.threads t = .flagging →
      Moved c s (.go t) ({ s with shuttingDown := true }.goTo t .flagged)
  | notifyAll {t : Nat} : s.threads t = .notifyingAll → Moved c s (.go t) (({ s with
      threads := fun v => if s.threads v = Pc.waiting then .popping else s.threads v }.goTo t .outside).note
      .shutDown)
  | notifyOne {t v : Nat} : s.threads t = .notifying → s.threads v = .waiting →
      Moved c s (.notifyOne t (some v)) ((s.goTo v .popping).goTo t .outside)
  | notifyNobody {t : Nat} : s.threads t = .notifying → (∀ v < c.workers, s.threads v ≠ Pc.waiting) →
      Moved c s (.notifyOne t none) (s.goTo t .outside)
  | wake {t : Nat} : s.threads t = .waiting → Moved c s (.wake t) (s.goTo t .popping)

theorem call_cases {s s' : Scheduler} {t : Nat} {pc : Pc} (h : s.call t pc = some s') :
    s.threads t = .outside ∧ s' = s.goTo t pc := by
  unfold call at h
  split at h
  · exact ⟨‹_›, (Option.some.inj h).symm⟩
  · cases h

theorem go_cases {c : Plan} {t : Nat} {s s' : Scheduler} (h : go c t s = some s') :
    Moved c s (.go t) s' := by
  unfold go at h
  split at h
  · cases h
    exact .append ‹_›
  · cases h
    exact .unlock ‹_› (.inl ⟨rfl, rfl⟩)
  · split at h
    · split at h
      · cases h
        exact .giveUp ‹_› ‹_› ‹_›
      · cases h
        exact .wait ‹_› ‹_› (Bool.eq_false_of_not_eq_true ‹_›)
    · cases h
      exact .choose ‹_› ‹_›
  · obtain ⟨r, hr, rfl⟩ := Option.map_eq_some_iff.mp h
    exact .erase ‹_› hr
  · cases h
    exact .unlock ‹_› (.inr (.inr (.inr ⟨_, rfl, rfl⟩)))
  · cases h
    exact .returnNull ‹_›
  · cases h
    exact .stamp ‹_›
  · cases h
    exact .unlock ‹_› (.inr (.inl ⟨rfl, rfl⟩))
  · cases h
    exact .flag ‹_›
  · cases h
    exact .unlock ‹_› (.inr (.inr (.inl ⟨rfl, rfl⟩)))
  · cases h
    exact .notifyAll ‹_›
  · cases h

theorem step_moved {c : Plan} {m : Move} {s s' : Scheduler} (h : step c m s = some s') :
    Moved c s m s' := by
  cases m with
  | tick ns =>
    cases h
    exact .tick ns
  | enqueue t r =>
    obtain ⟨new, h⟩ := Option.ite_none_right_eq_some.mp h
    obtain ⟨idle, rfl⟩ := call_cases h
    exact .enqueue idle new
  | requeue t r =>
    obtain ⟨held, h⟩ := Option.ite_none_right_eq_some.mp h
    obtain ⟨idle, rfl⟩ := call_cases h
    exact .requeue idle held
  | next t =>
    obtain ⟨worker, h⟩ := Option.ite_none_right_eq_some.mp h
    obtain ⟨idle, rfl⟩ := call_cases h
    exact .next idle worker
  | queueDepth t =>
    obtain ⟨idle, rfl⟩ := call_cases h
    exact .queueDepth idle
  | shutdown t =>
    obtain ⟨idle, rfl⟩ := call_cases h
    exact .shutdown idle
  | lock t =>
    obtain ⟨free, h⟩ := Option.ite_none_right_eq_some.mp h
    obtain ⟨pc, hpc, rfl⟩ := Option.map_eq_some_iff.mp h
    exact .lock free hpc
  | go t => exact go_cases h
  | notifyOne t waiter =>
    cases waiter with
    | none =>
      obtain ⟨⟨ready, nobody⟩, h⟩ := Option.ite_none_right_eq_some.mp h
      cases h
      exact .notifyNobody ready nobody
    | some v =>
      obtain ⟨⟨ready, waits⟩, h⟩ := Option.ite_none_right_eq_some.mp h
      cases h
      exact .notifyOne ready waits
  | wake t =>
    obtain ⟨waits, h⟩ := Option.ite_none_right_eq_some.mp h
    cases h
    exact .wake waits

theorem run_induction {c : Plan} {P : Scheduler → Prop} {ms : List Move}
    (keeps : ∀ m ∈ ms, ∀ s s', P s → Moved c s m s' → P s') {s s' : Scheduler} (start : P s)
    (h : run c ms s = some s') : P s' := by
  induction ms generalizing s with
  | nil => exact Option.some.inj h ▸ start
  | cons m ms ih =>
    obtain ⟨t, ht, rest⟩ := Option.bind_eq_some_iff.mp h
    exact ih (fun m hm => keeps m (List.mem_cons_of_mem _ hm))
      (keeps m List.mem_cons_self s t start (step_moved ht)) rest

theorem threads_goTo (s : Scheduler) (t v : Nat) (pc : Pc) :
    (s.goTo t pc).threads v = if v = t then pc else s.threads v := Function.update_apply ..

@[simp] theorem threads_put (s : Scheduler) (r : Nat) (p : Place) : (s.put r p).threads = s.threads := rfl
@[simp] theorem threads_note (s : Scheduler) (n : Note) : (s.note n).threads = s.threads := rfl

theorem place_of_put {s : Scheduler} {r x : Nat} {p q : Place} (h : (s.put r p).place x = q)
    (hq : q ≠ p) : x ≠ r ∧ s.place x = q := by
  change Function.update s.place r p x = q at h
  rw [Function.update_apply] at h
  split at h
  · exact absurd h.symm hq
  · exact ⟨‹_›, h⟩

/-- Only the thread that has the mutex is inside the lock, a thread that has chosen a request finds
the queue as it was when it chose, and every request is where its place says. -/
structure Sound (c : Plan) (s : Scheduler) : Prop where
  owner : ∀ t, (s.threads t).locked = true ↔ s.mutex = some t
  choice : ∀ t i, s.threads t = .chosen i → s.items ≠ [] ∧ i = pick c.policy (s.items.map c.bytes)
  enters : ∀ t r, (s.threads t).enters = some r → s.place r = .entering t
  leaves : ∀ t r, (s.threads t).leaves = some r → s.place r = .leaving t
  pending : ∀ r, r ∈ s.items ↔ s.place r = .pending
  distinct : s.items.Nodup

theorem Sound.exclusive {c : Plan} {s : Scheduler} (hs : Sound c s) {t v : Nat}
    (ht : (s.threads t).locked = true) (hv : (s.threads v).locked = true) : t = v :=
  Option.some.inj (((hs.owner t).mp ht).symm.trans ((hs.owner v).mp hv))

theorem owner_moved {c : Plan} {m : Move} {s s' : Scheduler}
    (owner : ∀ t, (s.threads t).locked = true ↔ s.mutex = some t) (h : Moved c s m s') (t : Nat) :
    (s'.threads t).locked = true ↔ s'.mutex = some t := by
  cases h <;> simp only [goTo, put, note, stamp, Function.update_apply] <;>
    grind [Pc.locked, Pc.granted_locked]

theorem choice_moved {c : Plan} {m : Move} {s s' : Scheduler} (hs : Sound c s) (h : Moved c s m s')
    (t i : Nat) (ht : s'.threads t = .chosen i) :
    s'.items ≠ [] ∧ i = pick c.policy (s'.items.map c.bytes) := by
  have choice := hs.choice t i
  have alone : ∀ v pc, s.threads v = pc → pc.locked = true → s.threads t = .chosen i → t = v :=
    fun v pc hv locked chose => hs.exclusive (chose ▸ rfl) (hv ▸ locked)
  cases h with
  | append hv =>
    rw [threads_note, threads_goTo] at ht
    split at ht
    · cases ht
    · exact absurd (alone _ _ hv rfl ht) ‹_›
  | erase hv hr =>
    rw [threads_note, threads_goTo] at ht
    split at ht
    · cases ht
    · exact absurd (alone _ _ hv rfl ht) ‹_›
  | _ =>
    revert ht
    simp only [goTo, put, note, stamp, Function.update_apply]
    grind [Pc.granted_ne_chosen]

theorem enters_moved {c : Plan} {m : Move} {s s' : Scheduler} (hs : Sound c s) (h : Moved c s m s')
    (t r : Nat) (ht : (s'.threads t).enters = some r) : s'.place r = .entering t := by
  have enters := hs.enters
  have leaves := hs.leaves
  have pending := hs.pending
  revert ht
  cases h <;> simp only [goTo, put, note, stamp, Function.update_apply] <;>
    grind [Pc.enters, Pc.leaves, Pc.granted_enters, List.mem_of_getElem?]

theorem leaves_moved {c : Plan} {m : Move} {s s' : Scheduler} (hs : Sound c s) (h : Moved c s m s')
    (t r : Nat) (ht : (s'.threads t).leaves = some r) : s'.place r = .leaving t := by
  have enters := hs.enters
  have leaves := hs.leaves
  have pending := hs.pending
  revert ht
  cases h <;> simp only [goTo, put, note, stamp, Function.update_apply] <;>
    grind [Pc.enters, Pc.leaves, Pc.granted_leaves, List.mem_of_getElem?]

theorem mem_eraseIdx_of_nodup {l : List Nat} (hl : l.Nodup) {i r : Nat} (hi : l[i]? = some r) (x : Nat) :
    x ∈ l.eraseIdx i ↔ x ≠ r ∧ x ∈ l := by
  obtain ⟨lt, rfl⟩ := List.getElem?_eq_some_iff.mp hi
  rw [← hl.erase_getElem i lt, List.Nodup.mem_erase_iff hl]

theorem pending_moved {c : Plan} {m : Move} {s s' : Scheduler} (hs : Sound c s) (h : Moved c s m s')
    (r : Nat) : r ∈ s'.items ↔ s'.place r = .pending := by
  have enters := hs.enters
  have leaves := hs.leaves
  have pending := hs.pending r
  cases h with
  | erase hv hr =>
    change r ∈ s.items.eraseIdx _ ↔ Function.update s.place _ _ r = .pending
    rw [mem_eraseIdx_of_nodup hs.distinct hr, Function.update_apply, pending]
    split <;> simp_all
  | append hv =>
    change r ∈ s.items ++ [_] ↔ Function.update s.place _ _ r = .pending
    rw [List.mem_append, List.mem_singleton, Function.update_apply, pending]
    split <;> simp_all
  | _ =>
    simp only [goTo, put, note, stamp, Function.update_apply]
    grind [Pc.leaves]

theorem Sound.new {c : Plan} {s : Scheduler} (hs : Sound c s) {t r : Nat}
    (ht : s.threads t = .appending r) : r ∉ s.items := by
  intro mem
  have place := hs.enters t r (ht ▸ rfl)
  rw [(hs.pending r).mp mem] at place
  cases place

theorem distinct_moved {c : Plan} {m : Move} {s s' : Scheduler} (hs : Sound c s) (h : Moved c s m s') :
    s'.items.Nodup := by
  cases h with
  | append hv =>
    exact List.nodup_append.mpr ⟨hs.distinct, List.nodup_singleton _, by
      rintro x hx y hy rfl
      exact hs.new hv (List.mem_singleton.mp hy ▸ hx)⟩
  | erase hv hr => exact hs.distinct.eraseIdx _
  | _ => exact hs.distinct

theorem sound_moved {c : Plan} {m : Move} {s s' : Scheduler} (hs : Sound c s) (h : Moved c s m s') :
    Sound c s' :=
  ⟨owner_moved hs.owner h, choice_moved hs h, enters_moved hs h, leaves_moved hs h, pending_moved hs h,
    distinct_moved hs h⟩

theorem sound_start (c : Plan) (now : Nat) : Sound c (start now) where
  owner t := by simp [start, Pc.locked]
  choice t i h := by cases h
  enters t r h := by cases h
  leaves t r h := by cases h
  pending r := by simp [start]
  distinct := List.nodup_nil

/-- The pushes and the pops, in the order in which the queue has seen them. -/
def trace (h : List Note) : List (Fifo.Event Nat) :=
  h.filterMap fun
    | .pushed r => some (.push r)
    | .popped r => some (.pop r)
    | .returned _ _ | .shutDown => none

def returns (h : List Note) : List (Nat × Nat) :=
  h.filterMap fun
    | .returned r now => some (r, now)
    | .pushed _ | .popped _ | .shutDown => none

def firstReturn (r : Nat) (h : List Note) : Option Nat := (returns h).lookup r

@[simp] theorem trace_append (h h' : List Note) : trace (h ++ h') = trace h ++ trace h' :=
  List.filterMap_append

@[simp] theorem returns_append (h h' : List Note) : returns (h ++ h') = returns h ++ returns h' :=
  List.filterMap_append

@[simp] theorem trace_pushed (r : Nat) : trace [.pushed r] = [.push r] := rfl
@[simp] theorem trace_popped (r : Nat) : trace [.popped r] = [.pop r] := rfl
@[simp] theorem trace_returned (r now : Nat) : trace [.returned r now] = [] := rfl
@[simp] theorem trace_shutDown : trace [.shutDown] = [] := rfl

theorem fifo_moved {c : Plan} (hc : c.policy ≠ .sjf) {m : Move} {s s' : Scheduler} (hs : Sound c s)
    (fifo : Fifo.run (trace s.history) [] = some s.items) (h : Moved c s m s') :
    Fifo.run (trace s'.history) [] = some s'.items := by
  cases h with
  | append hv =>
    change Fifo.run (trace (s.history ++ [.pushed _])) [] = _
    rw [trace_append]
    exact Fifo.run_snoc fifo (Fifo.step_push.mpr ⟨hs.new hv, rfl⟩)
  | @erase t i r hv hr =>
    obtain ⟨-, first⟩ := hs.choice t i hv
    have zero : i = 0 := by rw [first, pick, if_neg hc]
    subst zero
    obtain ⟨rest, split⟩ := List.head?_eq_some_iff.mp (List.head?_eq_getElem? ▸ hr)
    change Fifo.run (trace (s.history ++ [.popped r])) [] = some (s.items.eraseIdx 0)
    rw [trace_append]
    exact Fifo.run_snoc fifo (Fifo.step_pop.mpr (by simp [split]))
  | stamp hv =>
    change Fifo.run (trace (s.history ++ [.returned _ _])) [] = some s.items
    simpa using fifo
  | notifyAll hv =>
    change Fifo.run (trace (s.history ++ [.shutDown])) [] = some s.items
    simpa using fifo
  | _ => exact fifo

theorem run_fifo {c : Plan} (hc : c.policy ≠ .sjf) {ms : List Move} {now : Nat} {s : Scheduler}
    (h : run c ms (start now) = some s) : Fifo.run (trace s.history) [] = some s.items :=
  (run_induction (P := fun s => Sound c s ∧ Fifo.run (trace s.history) [] = some s.items)
    (fun _ _ _ _ hs moved => ⟨sound_moved hs.1 moved, fifo_moved hc hs.1 hs.2 moved⟩)
    ⟨sound_start c now, rfl⟩ h).2

structure Stamped (s : Scheduler) : Prop where
  now_pos : 0 < s.now
  return_pos : ∀ x ∈ returns s.history, 0 < x.2
  stamped : ∀ r, s.startNs r = (firstReturn r s.history).getD 0

theorem Stamped.of_same {s s' : Scheduler} (hs : Stamped s) (hnow : s.now ≤ s'.now)
    (hret : returns s'.history = returns s.history) (hns : s'.startNs = s.startNs) : Stamped s' where
  now_pos := lt_of_lt_of_le hs.now_pos hnow
  return_pos := hret ▸ hs.return_pos
  stamped r := by rw [hns, firstReturn, hret, ← firstReturn, hs.stamped]

theorem Stamped.firstReturn_pos {s : Scheduler} (hs : Stamped s) {r n : Nat}
    (h : firstReturn r s.history = some n) : 0 < n := by
  obtain ⟨l, l', split, -⟩ := List.lookup_eq_some_iff.mp h
  exact hs.return_pos (r, n) (split ▸ by simp)

theorem firstReturn_append (r : Nat) (h h' : List Note) :
    firstReturn r (h ++ h') = (firstReturn r h).or (firstReturn r h') := by
  unfold firstReturn
  rw [returns_append, List.lookup_append]

theorem Stamped.stamp {s : Scheduler} (hs : Stamped s) (t r : Nat) : Stamped (s.stamp t r) where
  now_pos := hs.now_pos
  return_pos x hx := by
    change x ∈ returns (s.history ++ [.returned r s.now]) at hx
    rw [returns_append, List.mem_append] at hx
    rcases hx with hx | hx
    · exact hs.return_pos x hx
    · rw [List.mem_singleton.mp hx]
      exact hs.now_pos
  stamped x := by
    change Function.update s.startNs r _ x = (firstReturn x (s.history ++ [.returned r s.now])).getD 0
    rw [firstReturn_append, Function.update_apply, hs.stamped, hs.stamped]
    by_cases hx : x = r
    · subst hx
      cases first : firstReturn x s.history with
      | none => simp [firstReturn, returns]
      | some n =>
        have pos := hs.firstReturn_pos first
        simp [pos.ne']
    · have other : firstReturn x [.returned r s.now] = none := by simp [firstReturn, returns, hx]
      rw [if_neg hx, other, Option.or_none]

theorem stamped_moved {c : Plan} {m : Move} {s s' : Scheduler} (hs : Stamped s) (h : Moved c s m s') :
    Stamped s' := by
  cases h with
  | tick ns => exact hs.of_same (Nat.le_add_right _ _) rfl rfl
  | append hv => exact hs.of_same le_rfl (by simp [goTo, put, note, returns]) rfl
  | erase hv hr => exact hs.of_same le_rfl (by simp [goTo, put, note, returns]) rfl
  | notifyAll hv => exact hs.of_same le_rfl (by simp [goTo, note, returns]) rfl
  | stamp hv => exact hs.stamp _ _
  | _ => exact hs.of_same le_rfl rfl rfl

theorem history_moved {c : Plan} {m : Move} {s s' : Scheduler} (h : Moved c s m s') :
    s.history <+: s'.history := by
  cases h <;> first | exact List.prefix_rfl | exact List.prefix_append _ _

theorem run_history {c : Plan} {ms : List Move} {s s' : Scheduler} (h : run c ms s = some s') :
    s.history <+: s'.history :=
  run_induction (P := fun x => s.history <+: x.history)
    (fun _ _ _ _ before moved => before.trans (history_moved moved)) List.prefix_rfl h

theorem run_stamped {c : Plan} {ms : List Move} {s s' : Scheduler} (hs : Stamped s)
    (h : run c ms s = some s') : Stamped s' :=
  run_induction (fun _ _ _ _ => stamped_moved) hs h

theorem stamped_start {now : Nat} (h : 0 < now) : Stamped (start now) :=
  ⟨h, by simp [start, returns], by simp [start, firstReturn, returns]⟩

/-- A scheduler of another policy than `sjf` is a first-in first-out queue: between the push of a
request and its pop just those go that waited when it was pushed, each once, in their order and
none of them a second time. A request bears the time of its first return for good. -/
theorem run_first_in_first_out {c : Plan} (hc : c.policy ≠ .sjf) {now : Nat} (hnow : 0 < now)
    {ms : List Move} {s : Scheduler} (h : run c ms (start now) = some s) :
    Fifo.run (trace s.history) [] = some s.items ∧
    (∀ before between after r, trace s.history = before ++ (.push r :: (between ++ .pop r :: after)) →
      .pop r ∉ between → ∃ waiting, Fifo.run before [] = some waiting ∧ waiting.Nodup ∧ r ∉ waiting ∧
        Fifo.pops between = waiting ∧
        ∀ x early late, between = early ++ (.push x :: late) → .pop x ∉ late) ∧
    (∀ r, s.startNs r = (firstReturn r s.history).getD 0) ∧
    ∀ ms' s', run c ms' s = some s' → ∀ r n, firstReturn r s.history = some n → s'.startNs r = n := by
  have fifo := run_fifo hc h
  have stamped := run_stamped (stamped_start hnow) h
  refine ⟨fifo, ?_, stamped.stamped, ?_⟩
  · intro before between after r split hr
    rw [split, Fifo.run_append] at fifo
    obtain ⟨waiting, hw, rest⟩ := Option.bind_eq_some_iff.mp fifo
    rw [show (.push r :: (between ++ .pop r :: after) : List (Fifo.Event Nat)) =
      (.push r :: (between ++ [.pop r])) ++ after by simp, Fifo.run_append] at rest
    obtain ⟨left, hl, -⟩ := Option.bind_eq_some_iff.mp rest
    obtain ⟨new, gone, -⟩ := Fifo.run_between hl hr
    have distinct := Fifo.run_nodup hw List.nodup_nil
    exact ⟨waiting, hw, distinct, new, gone, fun x early late hx => Fifo.not_overtaken hl hr distinct hx⟩
  · intro ms' s' h' r n hn
    obtain ⟨more, hmore⟩ := run_history h'
    rw [(run_stamped stamped h').stamped, ← hmore, firstReturn_append, hn]
    rfl

/-- The moves of a thread that pushes while nobody waits, and of one that finds a request. -/
def pushes (t : Nat) : List Move := [.lock t, .go t, .go t, .notifyOne t none]
def finds (t : Nat) : List Move := [.next t, .lock t, .go t, .go t, .go t, .go t]

/-- A request is preempted, and comes back after the one that came meanwhile. -/
def preempted : List Move :=
  .enqueue 7 1 :: pushes 7 ++ finds 0 ++ .enqueue 7 2 :: pushes 7 ++ .requeue 0 1 :: pushes 0 ++ finds 1 ++
    .tick 3 :: finds 0

def roundRobin : Plan := ⟨.rr, 2, fun _ => 0⟩

theorem run_first_in_first_out_preempted : ∃ s, run roundRobin preempted (start 5) = some s ∧
    trace s.history = [.push 1, .pop 1, .push 2] ++ (.push 1 :: ([.pop 2] ++ .pop 1 :: [])) ∧
    Fifo.run (trace s.history) [] = some s.items ∧
    (∃ waiting, Fifo.run [.push 1, .pop 1, .push 2] [] = some waiting ∧ 1 ∉ waiting ∧ Fifo.pops [.pop 2] = waiting) ∧
    s.startNs 1 = (firstReturn 1 s.history).getD 0 ∧
    ∀ ms' s', run roundRobin ms' s = some s' → s'.startNs 1 = 5 := by
  have reached : (run roundRobin preempted (start 5)).map (fun s => (trace s.history, firstReturn 1 s.history)) =
      some ([.push 1, .pop 1, .push 2, .push 1, .pop 2, .pop 1], some 5) := by decide +kernel
  obtain ⟨s, hs, facts⟩ := Option.map_eq_some_iff.mp reached
  obtain ⟨history, first⟩ := Prod.mk.inj facts
  obtain ⟨fifo, overtaken, stamped, kept⟩ := run_first_in_first_out (by decide) (by decide) hs
  obtain ⟨waiting, ran, -, absent, popped, -⟩ := overtaken [.push 1, .pop 1, .push 2] [.pop 2] [] 1 history (by decide)
  exact ⟨s, hs, history, fifo, ⟨waiting, ran, absent, popped⟩, stamped 1, fun ms' s' h => kept ms' s' h 1 5 first⟩

/-- The index `best` is the first of the least entries below `k`. -/
def FirstLeast (sizes : List UInt64) (k best : Nat) : Prop :=
  best < k ∧ ∀ j < k, (sizes.getD best 0).toNat ≤ (sizes.getD j 0).toNat ∧
    (j < best → (sizes.getD best 0).toNat < (sizes.getD j 0).toNat)

theorem sjfPick_upTo (sizes : List UInt64) (k : Nat) :
    FirstLeast sizes (k + 1) ((List.range' 1 k).foldl
      (fun best i => if sizes.getD i 0 < sizes.getD best 0 then i else best) 0) := by
  induction k with
  | zero => exact ⟨by simp, fun j hj => by
      obtain rfl : j = 0 := by omega
      simp⟩
  | succ k ih =>
    rw [List.range'_1_concat, List.foldl_append]
    generalize (List.range' 1 k).foldl
      (fun best i => if sizes.getD i 0 < sizes.getD best 0 then i else best) 0 = best at ih ⊢
    obtain ⟨inside, least⟩ := ih
    simp only [List.foldl_cons, List.foldl_nil, Nat.add_comm 1 k, UInt64.lt_iff_toNat_lt]
    split
    · refine ⟨by omega, fun j hj => ?_⟩
      by_cases hjk : j = k + 1
      · subst hjk
        omega
      · have below := (least j (by omega)).1
        omega
    · refine ⟨by omega, fun j hj => ?_⟩
      by_cases hjk : j = k + 1
      · subst hjk
        omega
      · exact least j (by omega)

theorem sjfPick_spec {sizes : List UInt64} (h : sizes ≠ []) : FirstLeast sizes sizes.length (sjfPick sizes) := by
  have pos := List.length_pos_iff.mpr h
  have spec := sjfPick_upTo sizes (sizes.length - 1)
  rwa [Nat.sub_add_cancel pos] at spec

/-- Without requeues a request is pushed once, and the queue keeps the order of the pushes. -/
structure InOrder (s : Scheduler) : Prop where
  once : (Fifo.pushes (trace s.history)).Nodup
  ordered : s.items.Sublist (Fifo.pushes (trace s.history))
  fresh : ∀ r, s.place r = .fresh → r ∉ Fifo.pushes (trace s.history)
  entering : ∀ r t, s.place r = .entering t → r ∉ Fifo.pushes (trace s.history)

theorem inOrder_start (now : Nat) : InOrder (start now) :=
  ⟨List.nodup_nil, List.Sublist.refl [], fun _ _ => List.not_mem_nil, fun _ _ _ => List.not_mem_nil⟩

theorem inOrder_moved {c : Plan} {m : Move} (hm : m.requeues = false) {s s' : Scheduler}
    (hs : Sound c s) (order : InOrder s) (h : Moved c s m s') : InOrder s' := by
  cases h with
  | @enqueue t r ht hr =>
    refine ⟨order.once, order.ordered, fun x hx => ?_, fun x v hx => ?_⟩
    · exact order.fresh x (place_of_put hx Place.noConfusion).2
    · by_cases hxr : x = r
      · exact hxr ▸ order.fresh r hr
      · change Function.update s.place r _ x = .entering v at hx
        rw [Function.update_of_ne hxr] at hx
        exact order.entering x v hx
  | requeue ht hr => cases hm
  | @append t r hv =>
    have new : r ∉ Fifo.pushes (trace s.history) := order.entering r t (hs.enters t r (hv ▸ rfl))
    have grown : Fifo.pushes (trace (s.history ++ [.pushed r])) = Fifo.pushes (trace s.history) ++ [r] := by
      simp
    refine ⟨?_, ?_, fun x hx => ?_, fun x v hx => ?_⟩
    · exact grown ▸ List.nodup_append.mpr ⟨order.once, List.nodup_singleton r, by
        rintro x hx y hy rfl
        exact new (List.mem_singleton.mp hy ▸ hx)⟩
    · exact grown ▸ List.Sublist.append order.ordered (List.Sublist.refl [r])
    · obtain ⟨ne, old⟩ := place_of_put hx Place.noConfusion
      exact grown ▸ by simpa [ne] using order.fresh x old
    · obtain ⟨ne, old⟩ := place_of_put hx Place.noConfusion
      exact grown ▸ by simpa [ne] using order.entering x v old
  | @erase t i r hv hr =>
    have same : Fifo.pushes (trace (s.history ++ [.popped r])) = Fifo.pushes (trace s.history) := by simp
    refine ⟨same ▸ order.once, ?_, fun x hx => ?_, fun x v hx => ?_⟩
    · exact same ▸ (List.eraseIdx_sublist s.items i).trans order.ordered
    · exact same ▸ order.fresh x (place_of_put hx Place.noConfusion).2
    · exact same ▸ order.entering x v (place_of_put hx Place.noConfusion).2
  | @stamp t r hv =>
    have same : Fifo.pushes (trace (s.history ++ [.returned r s.now])) = Fifo.pushes (trace s.history) := by
      simp
    exact ⟨same ▸ order.once, same ▸ order.ordered,
      fun x hx => same ▸ order.fresh x (place_of_put hx Place.noConfusion).2,
      fun x v hx => same ▸ order.entering x v (place_of_put hx Place.noConfusion).2⟩
  | @notifyAll t hv =>
    have same : Fifo.pushes (trace (s.history ++ [.shutDown])) = Fifo.pushes (trace s.history) := by simp
    exact ⟨same ▸ order.once, same ▸ order.ordered, fun x hx => same ▸ order.fresh x hx,
      fun x v hx => same ▸ order.entering x v hx⟩
  | _ => exact ⟨order.once, order.ordered, order.fresh, order.entering⟩

/-- The place of a request in the order in which the requests were enqueued. -/
def position (s : Scheduler) (r : Nat) : Nat := (Fifo.pushes (trace s.history)).idxOf r

theorem InOrder.positions {s : Scheduler} (order : InOrder s) :
    s.items.Pairwise fun x y => s.position x < s.position y := by
  refine List.Pairwise.sublist order.ordered (List.pairwise_iff_getElem.mpr fun i j hi hj hij => ?_)
  unfold position
  rwa [order.once.idxOf_getElem i hi, order.once.idxOf_getElem j hj]

theorem popped_of_moved {c : Plan} {t r : Nat} {s s' : Scheduler} (h : Moved c s (.go t) s')
    (hr : s'.history = s.history ++ [.popped r]) :
    ∃ i, s.threads t = .chosen i ∧ s.items[i]? = some r ∧ s'.items = s.items.eraseIdx i := by
  have unchanged : s.history ≠ s.history ++ [.popped r] := by simp
  have other : ∀ n, s.history ++ [n] = s.history ++ [.popped r] → n = .popped r := fun n hn => by
    simpa using hn
  cases h with
  | erase hv hi => exact ⟨_, hv, Note.popped.inj (other _ hr) ▸ hi, rfl⟩
  | append hv => exact Note.noConfusion (other _ hr)
  | stamp hv => exact Note.noConfusion (other _ hr)
  | notifyAll hv => exact Note.noConfusion (other _ hr)
  | _ => exact absurd hr unchanged

/-- `next` of `sjf` takes the request that is least by its declared size and then by its place in the
order of the enqueues, and leaves the others in this order. -/
theorem run_shortest_first {c : Plan} (hc : c.policy = .sjf) {now : Nat} {ms : List Move}
    (hms : ∀ m ∈ ms, m.requeues = false) {s : Scheduler} (h : run c ms (start now) = some s)
    {t r : Nat} {s' : Scheduler} (hs' : step c (.go t) s = some s')
    (hr : s'.history = s.history ++ [.popped r]) :
    s.items.Pairwise (fun x y => s.position x < s.position y) ∧
    ∃ l l', s.items = l ++ r :: l' ∧ s'.items = l ++ l' ∧ ∀ x ∈ l ++ l',
      c.bytes r < c.bytes x ∨ c.bytes r = c.bytes x ∧ s.position r < s.position x := by
  obtain ⟨sound, order⟩ := run_induction (P := fun s => Sound c s ∧ InOrder s)
    (fun m hm _ _ hs moved => ⟨sound_moved hs.1 moved, inOrder_moved (hms m hm) hs.1 hs.2 moved⟩)
    ⟨sound_start c now, inOrder_start now⟩ h
  have sorted := order.positions
  refine ⟨sorted, ?_⟩
  obtain ⟨i, hv, hi, left⟩ := popped_of_moved (step_moved hs') hr
  obtain ⟨full, chosen⟩ := sound.choice t i hv
  obtain ⟨inside, least⟩ : FirstLeast (s.items.map c.bytes) s.items.length i := by
    rw [chosen, pick, if_pos hc]
    simpa using sjfPick_spec (List.map_eq_nil_iff.not.mpr full)
  have size : ∀ j x, s.items[j]? = some x → (s.items.map c.bytes).getD j 0 = c.bytes x := by
    intro j x hx
    simp [List.getD_eq_getElem?_getD, hx]
  obtain ⟨lt, rfl⟩ := List.getElem?_eq_some_iff.mp hi
  refine ⟨s.items.take i, s.items.drop (i + 1), ?_, ?_, fun x hx => ?_⟩
  · rw [List.getElem_cons_drop, List.take_append_drop]
  · rw [left, List.eraseIdx_eq_take_drop_succ]
  · rw [← List.eraseIdx_eq_take_drop_succ] at hx
    obtain ⟨j, hne, hj⟩ := List.mem_eraseIdx_iff_getElem?.mp hx
    obtain ⟨hjl, rfl⟩ := List.getElem?_eq_some_iff.mp hj
    obtain ⟨below, strict⟩ := least j hjl
    rw [size i _ hi, size j _ hj] at below strict
    rw [UInt64.lt_iff_toNat_lt, ← UInt64.toNat_inj]
    rcases Nat.lt_or_gt_of_ne hne with before | behind
    · exact .inl (strict before)
    · have behind := List.pairwise_iff_getElem.mp sorted i j lt hjl behind
      omega

def shortest : List Move := .enqueue 7 1 :: pushes 7 ++ .enqueue 7 2 :: pushes 7 ++ .enqueue 7 3 :: pushes 7 ++
  [.next 0, .lock 0, .go 0]

def threeSizes : Plan := ⟨.sjf, 1, fun r => if r = 1 then 300 else 100⟩

theorem run_shortest_first_second : ∃ s s', run threeSizes shortest (start 5) = some s ∧
    step threeSizes (.go 0) s = some s' ∧ s'.items = [1, 3] ∧ s.position 2 < s.position 3 := by
  have reached : (run threeSizes shortest (start 5)).isSome = true := by decide +kernel
  obtain ⟨s, hs⟩ := Option.isSome_iff_exists.mp reached
  have popped : ((run threeSizes shortest (start 5)).bind (step threeSizes (.go 0))).map
      (fun s' => (s'.items, s'.history)) =
      some ([1, 3], [.pushed 1, .pushed 2, .pushed 3, .popped 2]) := by decide +kernel
  have pushed : (run threeSizes shortest (start 5)).map (fun s => (s.items, s.history)) =
      some ([1, 2, 3], [.pushed 1, .pushed 2, .pushed 3]) := by decide +kernel
  rw [hs] at popped pushed
  obtain ⟨s', hs', done⟩ := Option.map_eq_some_iff.mp popped
  simp only [Option.map_some, Option.some.injEq, Prod.mk.injEq] at pushed done
  have first := run_shortest_first (c := threeSizes) rfl (by decide) hs hs'
    (r := 2) (by rw [done.2, pushed.2]; rfl)
  have sorted := first.1
  rw [pushed.1] at sorted
  simp only [List.pairwise_cons] at sorted
  exact ⟨s, s', hs, hs', done.1, sorted.2.1 3 (by simp)⟩

end Scheduler

end LinkScheduling
