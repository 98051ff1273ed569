import LinkScheduling.Scheduler

/-! No wake-up of the queue is lost: while requests wait, a worker is awake or a `notify_one` is still
to come, and after a shutdown every worker is awake and is sent away from an empty queue only. -/

namespace LinkScheduling
namespace Pc

def asks : Pc → Bool
  | popping | testing | waiting => true
  | outside | pushing _ | appending _ | appended | notifying | chosen _ | erased _ | stamping _
  | measuring | counting | stopping | flagging | flagged | notifyingAll => false

theorem granted_asks {pc pc' : Pc} (h : pc.granted = some pc') : pc'.asks = pc.asks := by
  cases pc <;> cases h <;> rfl

theorem granted_ne_waiting {pc pc' : Pc} (h : pc.granted = some pc') : pc ≠ waiting ∧ pc' ≠ waiting := by
  cases pc <;> cases h <;> exact ⟨Pc.noConfusion, Pc.noConfusion⟩

theorem granted_ne_erased {pc pc' : Pc} (h : pc.granted = some pc') (req : Option Nat) :
    pc' ≠ erased req := by
  cases pc <;> cases h <;> exact Pc.noConfusion

theorem granted_owesNotify {pc pc' : Pc} (h : pc.granted = some pc') : pc.owesNotify = false := by
  cases pc <;> cases h <;> rfl

theorem granted_owesNotifyAll {pc pc' : Pc} (h : pc.granted = some pc') : pc'.owesNotifyAll = false := by
  cases pc <;> cases h <;> rfl

end Pc

namespace Scheduler

/-- Some worker is not blocked, or some pusher has its `notify_one` still to call. -/
def Awake (c : Plan) (s : Scheduler) : Prop :=
  (∃ w < c.workers, s.threads w ≠ .waiting) ∨ ∃ t, (s.threads t).owesNotify = true

/-- What keeps the waiting workers from being forgotten. -/
structure Wakeful (c : Plan) (s : Scheduler) : Prop where
  worker : ∀ t, (s.threads t).asks = true → t < c.workers
  awake : s.items ≠ [] → s.Awake c
  flagged : ∀ t, (s.threads t).owesNotifyAll = true → s.shuttingDown = true
  ended : .shutDown ∈ s.history → s.shuttingDown = true ∧ ∀ t, s.threads t ≠ .waiting
  null : ∀ t, s.threads t = .erased none → s.items = [] ∧ s.shuttingDown = true

theorem Awake.of_calm {c : Plan} {s s' : Scheduler} (h : s.Awake c)
    (sleeps : ∀ v, s'.threads v = .waiting → s.threads v = .waiting)
    (owes : ∀ v, (s.threads v).owesNotify = true → (s'.threads v).owesNotify = true) : s'.Awake c := by
  rcases h with ⟨w, hw, awake⟩ | ⟨v, hv⟩
  · exact .inl ⟨w, hw, fun asleep => awake (sleeps w asleep)⟩
  · exact .inr ⟨v, owes v hv⟩

theorem worker_moved {c : Plan} {m : Move} {s s' : Scheduler}
    (worker : ∀ t, (s.threads t).asks = true → t < c.workers) (h : Moved c s m s') (t : Nat)
    (ht : (s'.threads t).asks = true) : t < c.workers := by
  revert ht
  cases h <;> simp only [goTo, put, note, stamp, Function.update_apply] <;>
    grind [Pc.asks, Pc.granted_asks]

theorem awake_moved {c : Plan} (hc : 0 < c.workers) {m : Move} {s s' : Scheduler}
    (worker : ∀ t, (s.threads t).asks = true → t < c.workers)
    (awake : s.items ≠ [] → s.Awake c) (h : Moved c s m s') : s'.items ≠ [] → s'.Awake c := by
  intro full
  cases h with
  | append ht => exact .inr ⟨_, congrArg Pc.owesNotify (threads_goTo _ _ _ _ |>.trans (if_pos rfl))⟩
  | wait ht empty up => exact absurd empty full
  | @notifyOne t v ht hv =>
    -- the waiter is a worker, and it is blocked no longer
    refine .inl ⟨v, worker v (by rw [hv]; rfl), ?_⟩
    rw [threads_goTo, threads_goTo]
    split
    · exact Pc.noConfusion
    · exact if_pos rfl ▸ Pc.noConfusion
  | notifyNobody ht nobody =>
    refine .inl ⟨0, hc, ?_⟩
    rw [threads_goTo]
    split
    · exact Pc.noConfusion
    · exact nobody 0 hc
  | erase ht hi =>
    refine (awake (List.ne_nil_of_mem (List.mem_of_getElem? hi))).of_calm ?_ ?_ <;> intro v <;>
      simp only [goTo, put, note, Function.update_apply] <;> grind [Pc.owesNotify]
  | _ =>
    refine (awake full).of_calm ?_ ?_ <;> intro v <;>
      simp only [goTo, put, note, stamp, Function.update_apply] <;>
      grind [Pc.owesNotify, Pc.granted_owesNotify, Pc.granted_ne_waiting]

theorem flagged_moved {c : Plan} {m : Move} {s s' : Scheduler}
    (flagged : ∀ t, (s.threads t).owesNotifyAll = true → s.shuttingDown = true) (h : Moved c s m s') (t : Nat)
    (ht : (s'.threads t).owesNotifyAll = true) : s'.shuttingDown = true := by
  revert ht
  cases h <;> simp only [goTo, put, note, stamp, Function.update_apply] <;>
    grind [Pc.owesNotifyAll, Pc.granted_owesNotifyAll]

theorem ended_moved {c : Plan} {m : Move} {s s' : Scheduler}
    (flagged : ∀ t, (s.threads t).owesNotifyAll = true → s.shuttingDown = true)
    (ended : .shutDown ∈ s.history → s.shuttingDown = true ∧ ∀ t, s.threads t ≠ .waiting)
    (h : Moved c s m s') (hs' : .shutDown ∈ s'.history) :
    s'.shuttingDown = true ∧ ∀ t, s'.threads t ≠ .waiting := by
  cases h with
  | notifyAll ht =>
    refine ⟨flagged _ (by rw [ht]; rfl), fun v => ?_⟩
    simp only [goTo, note, Function.update_apply]
    grind
  | _ =>
    revert hs'
    simp only [goTo, put, note, stamp, Function.update_apply]
    grind [Pc.granted_ne_waiting]

theorem null_moved {c : Plan} {m : Move} {s s' : Scheduler} (sound : Sound c s)
    (null : ∀ t, s.threads t = .erased none → s.items = [] ∧ s.shuttingDown = true)
    (h : Moved c s m s') (t : Nat) (ht : s'.threads t = .erased none) :
    s'.items = [] ∧ s'.shuttingDown = true := by
  have alone : ∀ v pc, s.threads v = pc → pc.locked = true → s.threads t = .erased none → t = v :=
    fun v pc hv locked sent => sound.exclusive (sent ▸ rfl) (hv ▸ locked)
  cases h with
  | append hv =>
    rw [threads_note, threads_goTo] at ht
    split at ht
    · cases ht
    · exact absurd (alone _ _ hv rfl ht) ‹_›
  | erase hv hr =>
    rw [threads_note, threads_goTo] at ht
    split at ht
    · cases ht
    · exact absurd (alone _ _ hv rfl ht) ‹_›
  | _ =>
    revert ht
    simp only [goTo, put, note, stamp, Function.update_apply]
    grind [Pc.granted_ne_erased]

theorem wakeful_moved {c : Plan} (hc : 0 < c.workers) {m : Move} {s s' : Scheduler} (sound : Sound c s)
    (hs : s.Wakeful c) (h : Moved c s m s') : s'.Wakeful c where
  worker := worker_moved hs.worker h
  awake := awake_moved hc hs.worker hs.awake h
  flagged := flagged_moved hs.flagged h
  ended := ended_moved hs.flagged hs.ended h
  null := null_moved sound hs.null h

theorem wakeful_start (c : Plan) (now : Nat) : (start now).Wakeful c where
  worker t h := by cases h
  awake h := absurd rfl h
  flagged t h := by cases h
  ended h := by cases h
  null t h := by cases h

/-- While requests wait, some worker is not blocked or some pusher has its `notify_one` still to
call; once a shutdown has returned no thread is blocked; and `pop_pick` has no request for a worker
only while the queue is empty and shut down. -/
theorem run_wakes {c : Plan} (hc : 0 < c.workers) {now : Nat} {ms : List Move} {s : Scheduler}
    (h : run c ms (start now) = some s) :
    (s.items ≠ [] → (∃ w < c.workers, s.threads w ≠ .waiting) ∨ ∃ t, (s.threads t).owesNotify = true) ∧
    (.shutDown ∈ s.history → ∀ t, s.threads t ≠ .waiting) ∧
    ∀ t, s.threads t = .erased none → s.items = [] ∧ s.shuttingDown = true := by
  obtain ⟨-, wakeful⟩ := run_induction (P := fun s => Sound c s ∧ s.Wakeful c)
    (fun _ _ _ _ hs moved => ⟨sound_moved hs.1 moved, wakeful_moved hc hs.1 hs.2 moved⟩)
    ⟨sound_start c now, wakeful_start c now⟩ h
  exact ⟨wakeful.awake, fun hd => (wakeful.ended hd).2, wakeful.null⟩

/-- A worker falls asleep, a request is pushed and another worker takes it before the first wakes. -/
def stolen : List Move :=
  [.next 0, .lock 0, .go 0, .enqueue 7 1, .lock 7, .go 7, .go 7, .next 1, .lock 1, .go 1, .go 1, .go 1,
    .notifyOne 7 (some 0), .lock 0, .go 0]

/-- A shutdown, and the worker that it wakes. -/
def stops : List Move := [.shutdown 7, .lock 7, .go 7, .go 7, .go 7, .lock 0, .go 0]

theorem run_wakes_stolen :
    (∃ s, run roundRobin (stolen.take 7) (start 5) = some s ∧ s.items = [1] ∧
      ((∃ w < 2, s.threads w ≠ .waiting) ∨ ∃ t, (s.threads t).owesNotify = true)) ∧
    ∃ s, run roundRobin (stolen ++ stops) (start 5) = some s ∧ s.threads 0 = .erased none ∧
      (∀ t, s.threads t ≠ .waiting) ∧ s.items = [] ∧ s.shuttingDown = true := by
  have waits : (run roundRobin (stolen.take 7) (start 5)).map Scheduler.items = some [1] := by decide +kernel
  have stopped : (run roundRobin (stolen ++ stops) (start 5)).map (fun s =>
      (decide (.shutDown ∈ s.history), s.threads 0)) = some (true, .erased none) := by decide +kernel
  obtain ⟨s, hs, items⟩ := Option.map_eq_some_iff.mp waits
  obtain ⟨s', hs', facts⟩ := Option.map_eq_some_iff.mp stopped
  obtain ⟨shutDown, null⟩ := Prod.mk.inj facts
  have awake := (run_wakes (by decide) hs).1 (by simp [items])
  obtain ⟨-, woken, empty⟩ := run_wakes (by decide) hs'
  exact ⟨⟨s, hs, items, awake⟩, s', hs', null, woken (of_decide_eq_true shutDown), empty 0 null⟩

end Scheduler

end LinkScheduling
