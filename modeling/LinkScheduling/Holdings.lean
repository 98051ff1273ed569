import LinkScheduling.Conduct
import LinkScheduling.Conservation

/-! The requests on the heap. Each is bound to one connection until it is finalised. It holds no
file before it is opened, and one that a worker may serve has what a slice relies on. -/

namespace LinkScheduling
open Effect Pools

/-- The request of an admission thread that has not opened its file yet. -/
def Thread.newborn (t : Thread) : Option Nat :=
  match t.phase with
  | .stamping id | .opening id => some id
  | _ => none

/-- Every request on the heap is bound to its connection, and is not finalised. -/
structure Tenancy (s : Server) : Prop where
  bound : ∀ {id r}, s.heap id = some r → Bound s id r.clientFd
  live : ∀ {id r}, s.heap id = some r → tally Mark.finalise s.history id = 0

theorem Tenancy.start (os : Os) (threads : Nat) : Tenancy (.start os threads) where
  bound h := by cases h
  live h := by cases h

theorem Bound.kept {s s' : Server} {id : Nat} {x : Int} (h : Bound s id x) {k : Nat} {t t' : Thread}
    (hk : s.threads[k]? = some t) (threads : s'.threads = s.threads.set k t')
    (passes : t.request = some id → t'.request = some id ∧ t'.fd = t.fd ∨ .enqueued id t.fd ∈ s'.history)
    (history : ∀ m ∈ s.history, m ∈ s'.history) : Bound s' id x := by
  rcases h with h | ⟨u, hu, hid, hfd⟩
  · exact .inl (history _ h)
  · obtain ⟨i, hi⟩ := List.getElem?_of_mem hu
    by_cases same : i = k
    · subst same
      cases hk.symm.trans hi
      rcases passes hid with ⟨request, fd⟩ | enqueued
      · refine .inr ⟨t', ?_, request, fd.trans hfd⟩
        rw [threads]
        exact List.mem_set (List.getElem?_eq_some_iff.mp hi).1 t'
      · exact .inl (hfd ▸ enqueued)
    · refine .inr ⟨u, ?_, hid, hfd⟩
      rw [threads]
      exact List.mem_of_getElem? ((List.getElem?_set_ne (Ne.symm same)).trans hi)

theorem Bound.same {s s' : Server} {id : Nat} {x : Int} (h : Bound s id x) (threads : s'.threads = s.threads)
    (history : ∀ m ∈ s.history, m ∈ s'.history) : Bound s' id x := by
  rcases h with h | h
  · exact .inl (history _ h)
  · exact .inr (threads ▸ h)

theorem Tenancy.congr {s s' : Server} (h : Tenancy s)
    (heap : ∀ {id r'}, s'.heap id = some r' → ∃ r, s.heap id = some r ∧ r'.id = r.id ∧ r'.clientFd = r.clientFd)
    (bound : ∀ {id x}, Bound s id x → (s'.heap id).isSome → Bound s' id x)
    (finals : tally Mark.finalise s'.history = tally Mark.finalise s.history := by rfl) : Tenancy s' where
  bound hr' := by
    obtain ⟨r, hr, -, client⟩ := heap hr'
    rw [client]
    exact bound (h.bound hr) (by rw [hr']; rfl)
  live hr' := by
    obtain ⟨r, hr, -⟩ := heap hr'
    rw [finals]
    exact h.live hr

theorem mem_marked {l : List Mark} (ms : List Mark) : ∀ m ∈ l, m ∈ l ++ ms := fun _ => List.mem_append_left ms

theorem Tenancy.slice {s : Server} (h : Tenancy s) {id : Nat} {r : Request} {o : Round} {sp : SliceParams}
    (hr : s.heap id = some r) (ho : o = serveOrReport r.clientFd sp ⟨r, s.os⟩) : Tenancy (s.afterSlice id o) :=
  h.congr (fun hr' => heap_kept hr' hr (slice_request ho).1 (slice_request ho).2)
    (fun hb _ => hb.same rfl (mem_marked _)) (tally_slice _ _ (fun _ => rfl) rfl)

theorem Tenancy.step {cfg : Config} {s s' : Server} (h : Tenancy s) (placed : Placement s)
    (step : Step cfg s s') : Tenancy s' := by
  have heap : ∀ {id r'}, s.heap id = some r' →
      ∃ r, s.heap id = some r ∧ r'.id = r.id ∧ r'.clientFd = r.clientFd := fun hr => ⟨_, hr, rfl, rfl⟩
  cases step with
  | accept => exact h.congr heap (fun hb _ => hb.same rfl (mem_marked _)) (tally_mark _ _ rfl)
  | turnAway => exact h.congr heap (fun hb _ => hb.same rfl (mem_marked _)) (tally_mark _ _ rfl)
  | spawn =>
    refine h.congr heap fun hb _ => ?_
    rcases hb with hb | ⟨t, ht, rest⟩
    · exact .inl hb
    · exact .inr ⟨t, List.mem_append_left _ ht, rest⟩
  | read hk => exact h.congr heap fun hb _ => hb.kept hk rfl (fun hid => by cases hid) fun _ hm => hm
  | depth hk => exact h.congr heap fun hb _ => hb.kept hk rfl (fun hid => by cases hid) fun _ hm => hm
  | answered hk =>
    exact h.congr heap (fun hb _ => hb.kept hk rfl (fun hid => by cases hid) (mem_marked _)) (tally_mark _ _ rfl)
  | @number k fd op filename bytes leftover r hk hr =>
    have marked : tally Mark.finalise (s.history ++ [.created r (declared r s.os)]) =
        tally Mark.finalise s.history := tally_mark _ _ rfl
    refine ⟨fun {id r'} hr' => ?_, fun {id r'} hr' => ?_⟩
    · change Function.update s.heap s.nextId (some r) id = some r' at hr'
      by_cases new : id = s.nextId
      · subst new
        rw [Function.update_self] at hr'
        cases hr'
        refine .inr ⟨⟨fd, .stamping s.nextId⟩, ?_, rfl, by rw [hr]; rfl⟩
        exact List.mem_set (List.getElem?_eq_some_iff.mp hk).1 _
      · rw [Function.update_of_ne new] at hr'
        exact (h.bound hr').kept hk rfl (fun hid => by cases hid) (mem_marked _)
    · change Function.update s.heap s.nextId (some r) id = some r' at hr'
      change tally Mark.finalise (s.history ++ [.created r (declared r s.os)]) id = 0
      rw [marked]
      by_cases new : id = s.nextId
      · have places := placed.places id
        have fresh := placed.fresh id (by omega)
        omega
      · rw [Function.update_of_ne new] at hr'
        exact h.live hr'
  | @stamp k fd id r hk hr =>
    refine h.congr (fun hr' => heap_kept hr' hr rfl rfl) fun hb _ => hb.kept hk rfl (fun hid => .inl ⟨?_, rfl⟩) fun _ hm => hm
    rw [← hid]
    split <;> rfl
  | opened hk hr =>
    exact h.congr (fun hr' => heap_kept hr' hr rfl rfl)
      (fun hb _ => hb.kept hk rfl (fun hid => .inl ⟨hid, rfl⟩) (mem_marked _)) (tally_mark _ _ rfl)
  | @notFound k fd id r o hk hr =>
    refine h.congr heap_freed fun {x _} hb live => hb.kept hk rfl (fun hid => ?_) fun _ hm => hm
    cases hid
    simp [Server.setPhase, Server.setRequest] at live
  | enqueue hk =>
    refine h.congr heap (fun hb _ => hb.kept hk rfl (fun hid => ?_) (mem_marked _)) (tally_mark _ _ rfl)
    cases hid
    exact .inr (List.mem_append_right _ (List.mem_singleton.mpr rfl))
  | leave hk => exact h.congr heap fun hb _ => hb.kept hk rfl (fun hid => by cases hid) fun _ hm => hm
  | next hw hi hq hr => exact h.congr (fun hr' => heap_kept hr' hr rfl rfl) fun hb _ => hb.same rfl fun _ hm => hm
  | preempt hw hr ho => exact ⟨(h.slice hr ho).bound, (h.slice hr ho).live⟩
  | serve hw hr ho => exact ⟨(h.slice hr ho).bound, (h.slice hr ho).live⟩
  | sliceCrash hw hr ho => exact ⟨(h.slice hr ho).bound, (h.slice hr ho).live⟩
  | record hw hr heq =>
    exact h.congr (fun hr' => heap_kept hr' hr (heq ▸ rfl) (heq ▸ rfl)) fun hb _ => hb.same rfl fun _ hm => hm
  | @release w id r o hw hr ho =>
    have other : ∀ {x r'}, Function.update s.heap id none x = some r' → id ≠ x ∧ s.heap x = some r' := by
      intro x r' hr'
      by_cases same : x = id
      · rw [same, Function.update_self] at hr'
        cases hr'
      · rw [Function.update_of_ne same] at hr'
        exact ⟨Ne.symm same, hr'⟩
    refine ⟨fun hr' => (h.bound (other hr').2).same rfl (mem_marked _), fun {x r'} hr' => ?_⟩
    obtain ⟨ne, hr'⟩ := other hr'
    simp only [Server.mark, Server.setWorker, Server.released, tally_append, tally_cons, tally_nil,
      Mark.finalise, hit_some, h.live hr', if_neg ne]
  | _ => exact h.congr heap fun hb _ => hb.same rfl fun _ hm => hm

structure Request.Newborn (r : Request) : Prop where
  started : r.started = false
  file : r.fileFd = -1
  tmp : r.tmpPath = []

structure Fit (s : Server) (id : Nat) (r : Request) : Prop where
  born : 0 < tally Thread.newborn s.threads id → r.Newborn
  gets : ∀ fd, ⟨fd, .opening id⟩ ∈ s.threads → r.op = .get
  ready : s.crashed = false → tally Thread.newborn s.threads id = 0 → tally Worker.ended s.workers id = 0 → r.Ready
  sound : (Job.mk r s.os).Sound

structure Fitting (s : Server) : Prop where
  fit : ∀ {id r}, s.heap id = some r → Fit s id r

theorem Fitting.start (os : Os) (threads : Nat) : Fitting (.start os threads) where
  fit h := by cases h

theorem Job.Sound.later {r : Request} {os os' : Os} (h : (Job.mk r os).Sound)
    (next : os.files.nextFd ≤ os'.files.nextFd) : (Job.mk r os').Sound := by
  refine ⟨h.apart, h.temp, fun fd held => ?_⟩
  have below := h.below fd held
  simp only at below ⊢
  omega

theorem Fitting.moved {s s' : Server} (h : Fitting s) (id : Nat)
    (others : ∀ x ≠ id, s'.heap x = s.heap x ∧ tally Thread.newborn s'.threads x = tally Thread.newborn s.threads x ∧
      tally Worker.ended s'.workers x = tally Worker.ended s.workers x)
    (openings : ∀ x ≠ id, ∀ fd, ⟨fd, .opening x⟩ ∈ s'.threads → ⟨fd, .opening x⟩ ∈ s.threads)
    (mine : ∀ r', s'.heap id = some r' → Fit s' id r')
    (next : s.os.files.nextFd ≤ s'.os.files.nextFd := by exact Nat.le_refl _)
    (alive : s'.crashed = false → s.crashed = false := by exact fun h => h) : Fitting s' where
  fit {x r} hr := by
    by_cases same : x = id
    · subst same
      exact mine r hr
    · obtain ⟨heap, newborn, ended⟩ := others x same
      have fit := h.fit (heap ▸ hr)
      refine ⟨?_, fun fd ht => fit.gets fd (openings x same fd ht), fun up => ?_, fit.sound.later next⟩
      · rw [newborn]
        exact fit.born
      · rw [newborn, ended]
        exact fit.ready (alive up)

theorem Fitting.congr {s s' : Server} (h : Fitting s) (m : s'.heap = s.heap := by rfl)
    (b : tally Thread.newborn s'.threads = tally Thread.newborn s.threads := by rfl)
    (e : tally Worker.ended s'.workers = tally Worker.ended s.workers := by rfl)
    (o : ∀ x fd, ⟨fd, .opening x⟩ ∈ s'.threads → ⟨fd, .opening x⟩ ∈ s.threads := by exact fun _ _ h => h)
    (n : s.os.files.nextFd ≤ s'.os.files.nextFd := by exact Nat.le_refl _)
    (a : s'.crashed = false → s.crashed = false := by exact fun h => h) : Fitting s' where
  fit {x r} hr := by
    have fit := h.fit (m ▸ hr)
    refine ⟨?_, fun fd ht => fit.gets fd (o x fd ht), fun up => ?_, fit.sound.later n⟩
    · rw [b]
      exact fit.born
    · rw [b, e]
      exact fit.ready (a up)

theorem newborn_le (threads : List Thread) (id : Nat) :
    tally Thread.newborn threads id ≤ tally Thread.request threads id := by
  refine tally_mono _ _ fun t x ht => ?_
  obtain ⟨fd, phase⟩ := t
  cases phase with
  | stamping => exact ht
  | opening => exact ht
  | _ => cases ht

theorem ended_le (workers : List Worker) (id : Nat) : tally Worker.ended workers id ≤ tally Worker.request workers id := by
  refine tally_mono _ _ fun p x hp => ?_
  cases p with
  | served => exact hp
  | recorded => exact hp
  | _ => cases hp

theorem Placement.alone {s : Server} (h : Placement s) {w id : Nat} {p : Worker} (hw : s.workers[w]? = some p)
    (hp : p.request = some id) : tally Thread.newborn s.threads id = 0 ∧ tally Worker.request s.workers id = 1 := by
  have held := tally_pos Worker.request id (List.mem_of_getElem? hw) hp
  have places := h.places id
  have once := h.once id
  have le := newborn_le s.threads id
  omega

theorem Placement.unended {s : Server} (h : Placement s) {w id : Nat} {p : Worker} (hw : s.workers[w]? = some p)
    (hp : p.request = some id) (going : p.ended = none) : tally Worker.ended s.workers id = 0 := by
  have one := (h.alone hw hp).2
  have moved := tally_set Worker.ended id hw (.recorded id)
  have same := tally_set Worker.request id hw (.recorded id)
  have le := ended_le (s.workers.set w (.recorded id)) id
  rw [going, hit_none] at moved
  rw [hp] at same
  simp only [Worker.request, Worker.ended, hit_self] at moved same
  omega

theorem phase_set {threads : List Thread} {k : Nat} {t : Thread} {fd : Int} {phase : Phase}
    (h : ⟨fd, phase⟩ ∈ threads.set k t) (ht : t.phase ≠ phase) : ⟨fd, phase⟩ ∈ threads := by
  rcases List.mem_or_eq_of_mem_set h with h | h
  · exact h
  · exact absurd (by rw [← h]) ht

theorem Fitting.slice {cfg : Config} {s : Server} (h : Fitting s) (placed : Placement s) {w id : Nat} {r : Request}
    {o : Round} (up : s.crashed = false) (hw : s.workers[w]? = some (.holding id)) (hr : s.heap id = some r)
    (ho : o = serveOrReport r.clientFd cfg.sp ⟨r, s.os⟩) :
    Kept ⟨r, s.os⟩ o.log o.state ∧ (o.value = .ok .preempted → o.state.req.Ready) := by
  subst ho
  exact @serveOrReport_kept ⟨r, s.os⟩ cfg.sp
    ((h.fit hr).ready up (placed.alone hw rfl).1 (placed.unended hw rfl rfl))

theorem Fitting.served {s s' : Server} (h : Fitting s) (placed : Placement s) {w id : Nat} {r : Request} {o : Round}
    (hw : s.workers[w]? = some (.holding id)) (hr : s.heap id = some r) (kept : Kept ⟨r, s.os⟩ o.log o.state)
    (next : s.os.files.nextFd ≤ o.state.os.files.nextFd)
    (ready : s'.crashed = false → tally Worker.ended s'.workers id = 0 → o.state.req.Ready)
    (ended : ∀ x ≠ id, tally Worker.ended s'.workers x = tally Worker.ended s.workers x)
    (alive : s'.crashed = false → s.crashed = false)
    (heap : s'.heap = Function.update s.heap id (some o.state.req) := by rfl)
    (os : s'.os = o.state.os := by rfl) (threads : s'.threads = s.threads := by rfl) : Fitting s' := by
  refine h.moved id (fun x hx => ⟨?_, by rw [threads], ended x hx⟩) (fun x _ fd ht => threads ▸ ht) (fun r' hr' => ?_)
    (os ▸ next) alive
  · rw [heap, Function.update_of_ne hx]
  · rw [heap, Function.update_self] at hr'
    cases hr'
    have fit := h.fit hr
    refine ⟨fun born => ?_, fun fd ht => ?_, fun up _ => ready up, os ▸ kept.sound fit.sound⟩
    · rw [threads, (placed.alone hw rfl).1] at born
      cases born
    · rw [(fixed_fields kept.fixed).1]
      exact fit.gets fd (threads ▸ ht)

theorem Request.Newborn.ready {r : Request} (h : r.Newborn) (put : r.op = .put) : r.Ready where
  get get := by
    rw [put] at get
    cases get
  fresh _ _ := ⟨h.file, h.tmp⟩
  begun _ started := by
    rw [h.started] at started
    cases started

theorem Fitting.step {cfg : Config} {s s' : Server} (h : Fitting s) (placed : Placement s)
    (connected : Connections s) (up : s.crashed = false) (step : Step cfg s s') : Fitting s' := by
  cases step with
  | accept => exact h.congr (n := Nat.le_succ _)
  | @turnAway fd o ha ho => exact h.congr (n := nextFd_le ho (answer_beyond fd _))
  | spawn =>
    refine h.congr (b := funext fun _ => by simp [Thread.newborn]) (o := fun x fd ht => ?_)
    rcases List.mem_append.mp ht with ht | ht
    · exact ht
    · cases List.mem_singleton.mp ht
  | @read k fd hdr o hk ho hv =>
    refine h.congr (b := tally_move _ hk ?_) (o := fun x fd ht => phase_set ht ?_)
      (n := nextFd_le ho (readHeaderLine_beyond fd _))
    · cases ruling hdr <;> rfl
    · cases ruling hdr <;> simp [Ruling.phase]
  | depth hk => exact h.congr (b := tally_move _ hk rfl) (o := fun x fd ht => phase_set ht (by simp))
  | @answered k fd reply o hk ho =>
    exact h.congr (b := tally_move _ hk rfl) (o := fun x fd ht => phase_set ht (by simp))
      (n := nextFd_le ho (answer_beyond fd _))
  | @number k fd op filename bytes leftover r hk hr =>
    have threads := fun x => tally_set Thread.newborn x hk ⟨fd, .stamping s.nextId⟩
    simp only [Thread.newborn, hit_none] at threads
    refine h.moved s.nextId (fun x hx => ⟨Function.update_of_ne hx _ _, ?_, rfl⟩)
      (fun x hx fd ht => phase_set ht (by simp)) fun r' hr' => ?_
    · have moved := threads x
      rw [hit_some, if_neg (Ne.symm hx)] at moved
      exact moved
    · change Function.update s.heap s.nextId (some r) s.nextId = some r' at hr'
      rw [Function.update_self] at hr'
      cases hr'
      have connection := tally_pos Thread.connection fd (List.mem_of_getElem? hk) rfl
      have places := connected.places fd
      have given : fd < (s.os.files.nextFd : Int) := by
        by_contra late
        have fresh := connected.fresh fd (not_lt.mp late)
        omega
      refine ⟨fun _ => hr ▸ ⟨rfl, rfl, rfl⟩, fun fd' ht => ?_, fun _ newborn => ?_, hr ▸ ⟨fun h => ?_, .inl rfl, ?_⟩⟩
      · have ht : ⟨fd', .opening s.nextId⟩ ∈ s.threads := phase_set ht (by simp)
        have fresh := placed.fresh s.nextId (Nat.le_refl _)
        have pos := tally_pos Thread.request s.nextId ht rfl
        omega
      · have moved := threads s.nextId
        rw [hit_self] at moved
        change tally Thread.newborn (s.threads.set k ⟨fd, .stamping s.nextId⟩) s.nextId = 0 at newborn
        omega
      · cases h
      · rintro d (client | ⟨file, nonneg⟩)
        · rw [client]
          exact given
        · rw [file] at nonneg
          cases nonneg
  | @stamp k fd id r hk hr =>
    have fit := h.fit hr
    have pos := tally_pos Thread.newborn id (List.mem_of_getElem? hk) rfl
    have newborn := fit.born pos
    have sound : (Job.mk { r with arrivalNs := s.os.now } s.os).Sound :=
      ⟨fit.sound.apart, fit.sound.temp, fit.sound.below⟩
    by_cases get : r.op = .get
    · simp only [if_pos get]
      have same : tally Thread.newborn (s.threads.set k ⟨fd, .opening id⟩) = tally Thread.newborn s.threads :=
        tally_move _ hk rfl
      refine h.moved id (fun x hx => ⟨Function.update_of_ne hx _ _, congrFun same x, rfl⟩)
        (fun x hx fd ht => phase_set ht (by simp [Ne.symm hx])) fun r' hr' => ?_
      change Function.update s.heap id _ id = some r' at hr'
      rw [Function.update_self] at hr'
      cases hr'
      refine ⟨fun _ => ⟨newborn.started, newborn.file, newborn.tmp⟩, fun _ _ => get, fun _ none => ?_, sound⟩
      change tally Thread.newborn (s.threads.set k ⟨fd, .opening id⟩) id = 0 at none
      rw [same] at none
      omega
    · simp only [if_neg get]
      have put : r.op = .put := by cases hop : r.op <;> simp_all
      have threads := fun x => tally_set Thread.newborn x hk ⟨fd, .enqueuing id⟩
      simp only [Thread.newborn, hit_none] at threads
      refine h.moved id (fun x hx => ⟨Function.update_of_ne hx _ _, ?_, rfl⟩)
        (fun x hx fd ht => phase_set ht (by simp)) fun r' hr' => ?_
      · have moved := threads x
        rw [hit_some, if_neg (Ne.symm hx)] at moved
        exact moved
      · change Function.update s.heap id _ id = some r' at hr'
        rw [Function.update_self] at hr'
        cases hr'
        have born : Request.Newborn { r with arrivalNs := s.os.now } := ⟨newborn.started, newborn.file, newborn.tmp⟩
        refine ⟨fun _ => born, fun fd' ht => ?_, fun _ _ _ => born.ready put, sound⟩
        exact fit.gets fd' (phase_set ht (by simp))
  | @opened k fd id r n size o hk hr ho hv =>
    have threads := fun x => tally_set Thread.newborn x hk ⟨fd, .enqueuing id⟩
    simp only [Thread.newborn, hit_none] at threads
    have fit := h.fit hr
    have pos := tally_pos Thread.newborn id (List.mem_of_getElem? hk) rfl
    have newborn := fit.born pos
    have gets := fit.gets fd (List.mem_of_getElem? hk)
    have opens := openGet_conducts r.path fit.sound.below
    rw [wp, ← ho] at opens
    obtain ⟨-, ⟨refused, -⟩ | ⟨size', given, acts⟩⟩ := opens
    · rw [hv] at refused
      cases refused
    · rw [hv] at given
      cases given
      refine h.moved id (fun x hx => ⟨Function.update_of_ne hx _ _, ?_, rfl⟩)
        (fun x hx fd ht => phase_set ht (by simp)) (fun r' hr' => ?_) (nextFd_le ho (openGet_beyond fd _))
      · have moved := threads x
        rw [hit_some, if_neg (Ne.symm hx)] at moved
        exact moved
      · change Function.update s.heap id _ id = some r' at hr'
        rw [Function.update_self] at hr'
        cases hr'
        refine ⟨fun born => ?_, fun _ _ => gets, fun _ _ _ => ⟨fun _ => Int.natCast_nonneg _, fun put => ?_, fun put => ?_⟩,
          fun _ => ?_, .inl newborn.tmp, ?_⟩
        · have moved := threads id
          have once := placed.once id
          have le := newborn_le s.threads id
          rw [hit_self] at moved
          change 0 < tally Thread.newborn (s.threads.set k ⟨fd, .enqueuing id⟩) id at born
          omega
        · rw [show r.op = .put from put] at gets
          cases gets
        · rw [show r.op = .put from put] at gets
          cases gets
        · have client := fit.sound.below _ (held_client r)
          simp only at client ⊢
          omega
        · rintro d (client | ⟨file, -⟩)
          · exact acts.below fit.sound.below d (.inr (.inl client))
          · exact acts.below fit.sound.below d (.inl file)
  | @notFound k fd id r o hk hr ho hv =>
    have threads := fun x => tally_set Thread.newborn x hk ⟨fd, .answering (formatErr (ascii "file not found"))⟩
    simp only [Thread.newborn, hit_none] at threads
    refine h.moved id (fun x hx => ⟨Function.update_of_ne hx _ _, ?_, rfl⟩)
      (fun x hx fd ht => phase_set ht (by simp)) (fun r' hr' => ?_) (nextFd_le ho (openGet_beyond fd _))
    · have moved := threads x
      rw [hit_some, if_neg (Ne.symm hx)] at moved
      exact moved
    · change Function.update s.heap id none id = some r' at hr'
      rw [Function.update_self] at hr'
      cases hr'
  | enqueue hk => exact h.congr (b := tally_move _ hk rfl) (o := fun x fd ht => phase_set ht (by simp))
  | leave hk => exact h.congr (b := tally_move _ hk rfl) (o := fun x fd ht => phase_set ht (by simp))
  | workerExits hw => exact h.congr (e := tally_move _ hw rfl)
  | @next w i id r hw hi hq hr =>
    have same : tally Worker.ended (s.workers.set w (.holding id)) = tally Worker.ended s.workers := tally_move _ hw rfl
    refine h.moved id (fun x hx => ⟨Function.update_of_ne hx _ _, rfl, congrFun same x⟩) (fun x hx fd ht => ht)
      fun r' hr' => ?_
    change Function.update s.heap id _ id = some r' at hr'
    rw [Function.update_self] at hr'
    cases hr'
    have fit := h.fit hr
    refine ⟨fun born => ?_, fit.gets, fun up born ended => ?_, ⟨fit.sound.apart, fit.sound.temp, fit.sound.below⟩⟩
    · have newborn := fit.born born
      exact ⟨newborn.started, newborn.file, newborn.tmp⟩
    · have ready := fit.ready up born (by rw [← same]; exact ended)
      exact ⟨ready.get, ready.fresh, ready.begun⟩
  | @preempt w id r o hw hr ho hv =>
    obtain ⟨kept, ready⟩ := h.slice placed up hw hr ho
    have same : tally Worker.ended (s.workers.set w (.preempted id)) = tally Worker.ended s.workers := tally_move _ hw rfl
    exact h.served placed hw hr kept (nextFd_le_job ho (serveOrReport_apart _ _)) (fun _ _ => ready hv)
      (fun x _ => congrFun same x) fun h => h
  | @serve w id r res o hw hr ho hv =>
    have moved := fun x => tally_set Worker.ended x hw (.served id res)
    simp only [Worker.ended, hit_none] at moved
    refine h.served placed hw hr (h.slice placed up hw hr ho).1 (nextFd_le_job ho (serveOrReport_apart _ _))
      (fun _ ended => ?_) (fun x hx => ?_) fun h => h
    · have one := moved id
      rw [hit_self] at one
      change tally Worker.ended (s.workers.set w (.served id res)) id = 0 at ended
      omega
    · have other := moved x
      rw [hit_some, if_neg (Ne.symm hx)] at other
      exact other
  | @sliceCrash w id r e o hw hr ho hv =>
    refine h.served placed hw hr (h.slice placed up hw hr ho).1 (nextFd_le_job ho (serveOrReport_apart _ _))
      (fun alive _ => ?_) (fun x _ => rfl) fun alive => ?_
    · cases alive
    · cases alive
  | requeue hw => exact h.congr (e := tally_move _ hw rfl)
  | @record w id res r r' hw hr heq =>
    have same : tally Worker.ended (s.workers.set w (.recorded id)) = tally Worker.ended s.workers := tally_move _ hw rfl
    refine h.moved id (fun x hx => ⟨Function.update_of_ne hx _ _, rfl, congrFun same x⟩) (fun x hx fd ht => ht)
      fun r'' hr'' => ?_
    change Function.update s.heap id _ id = some r'' at hr''
    rw [Function.update_self, heq] at hr''
    cases hr''
    have fit := h.fit hr
    refine ⟨fun born => ?_, fit.gets, fun up born ended => ?_, ⟨fit.sound.apart, fit.sound.temp, fit.sound.below⟩⟩
    · have newborn := fit.born born
      exact ⟨newborn.started, newborn.file, newborn.tmp⟩
    · have ready := fit.ready up born (by rw [← same]; exact ended)
      exact ⟨ready.get, ready.fresh, ready.begun⟩
  | @release w id r o hw hr ho =>
    have moved := fun x => tally_set Worker.ended x hw .asking
    simp only [Worker.ended, hit_none] at moved
    refine h.moved id (fun x hx => ⟨Function.update_of_ne hx _ _, rfl, ?_⟩) (fun x hx fd ht => ht) (fun r' hr' => ?_)
      (nextFd_le_job ho (finalise_apart r.clientFd))
    · have other := moved x
      rw [hit_some, if_neg (Ne.symm hx)] at other
      exact other
    · change Function.update s.heap id none id = some r' at hr'
      rw [Function.update_self] at hr'
      cases hr'
  | @threadCrash k fd e o hk ho hv =>
    exact h.congr (n := nextFd_le ho (readHeaderLine_beyond fd _)) (a := fun alive => by cases alive)
  | @openCrash k fd id r e o hk hr ho hv =>
    exact h.congr (n := nextFd_le ho (openGet_beyond fd _)) (a := fun alive => by cases alive)
  | _ => exact h.congr

structure Tended (s : Server) : Prop where
  placement : Placement s
  connections : Connections s
  handed : Handed s
  tenancy : Tenancy s
  fitting : Fitting s

theorem Tended.start (os : Os) (threads : Nat) : Tended (.start os threads) :=
  ⟨.start os threads, .start os threads, .start os threads, .start os threads, .start os threads⟩

theorem Tended.step {cfg : Config} {s s' : Server} (h : Tended s) (up : s.crashed = false)
    (step : Step cfg s s') : Tended s' :=
  ⟨h.placement.step step, h.connections.step step, h.handed.step h.placement step,
    h.tenancy.step h.placement step, h.fitting.step h.placement h.connections up step⟩

end LinkScheduling
