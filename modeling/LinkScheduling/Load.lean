import LinkScheduling.Download
import LinkScheduling.Pools
import LinkScheduling.Requests
import LinkScheduling.Winding

/-! The load generator, after `load.cpp`: the files of the workload are seeded one after the other,
and then threads share a counter of requests. Which file and which kind of request a thread draws and
what comes of its exchange is the environment's choice; so is the order of the threads. An exception
of an exchange ends the process, and so does one of a thread before it asks. -/

namespace LinkScheduling
open Pools Winding

def baseName (path : Path) : Bytes := basenameOf path

/-- An entry of the directory, and whether `stat` finds a regular file there. -/
structure DirEntry where
  name : Bytes
  regular : Bool

def regularFiles (dir : Path) (entries : List DirEntry) : List Path :=
  (entries.filter fun e => e.name ≠ ascii "." ∧ e.name ≠ ascii ".." ∧ e.regular = true).map
    fun e => dir ++ ascii "/" ++ e.name

def listWorkloadFiles (dir : Path) (entries : Option (List DirEntry)) : List Path :=
  match entries with
  | none => []
  | some es => (regularFiles dir es).insertionSort (· ≤ ·)

inductive Demand
  | get (name : Bytes)
  | put (path : Path)
  deriving DecidableEq

def demandOf (op : Op) (path : Path) : Demand :=
  match op with
  | .get => .get (baseName path)
  | .put => .put path

inductive Loader
  | unstarted
  | started
  | asking
  | requesting (idx : UInt64)
  | failed
  | exited
  deriving DecidableEq

structure Asked where
  idx : UInt64
  demand : Demand
  ok : Bool

/-- The load; of `seeded` and `asked` nothing is read. -/
structure Load where
  files : List Path
  nRequests : UInt64
  seeds : List Path
  counter : UInt64 := 0
  failures : UInt64 := 0
  crashed : Bool := false
  threads : List Loader
  seeded : List (Path × Bool) := []
  asked : List Asked := []

/-- Which step comes next, and what the environment chooses for it. -/
inductive LoadAct
  | seed (r : Except Fault ExchangeResult)
  | spawn (started : Bool)
  | rng (t : Nat) (drawn : Bool)
  | take (t : Nat)
  | exchange (t file : Nat) (op : Op) (r : Except Fault ExchangeResult)
  | note (t : Nat)

/-- The environment throws an exception, which nothing catches. -/
def LoadAct.throws : LoadAct → Bool
  | .seed (.error _) | .spawn false | .rng _ false | .exchange _ _ _ (.error _) => true
  | _ => false

namespace Load

/-- `run_load` up to its first exchange: nothing where there is no file. -/
def start (dir : Path) (entries : Option (List DirEntry)) (nRequests : UInt64) (clientThreads : Int) : Option Load :=
  let files := listWorkloadFiles dir entries
  if files = [] then none
  else some {
    files := files
    nRequests := nRequests
    seeds := files
    threads := List.replicate (if 0 < clientThreads then clientThreads.toNat else 1) .unstarted }

def setThread (s : Load) (t : Nat) (p : Loader) : Load := { s with threads := s.threads.set t p }

def step (a : LoadAct) (s : Load) : Option Load :=
  if s.crashed then none
  else
    match a with
    | .seed r =>
      match s.seeds with
      | [] => none
      | path :: rest =>
        match r with
        | .error _ => some { s with crashed := true }
        | .ok r => some { s with
            seeds := rest
            failures := if r.ok then s.failures else s.failures + 1
            seeded := s.seeded ++ [(path, r.ok)] }
    | .spawn started =>
      let t := s.threads.idxOf .unstarted
      if s.seeds = [] ∧ t < s.threads.length then
        some (if started then s.setThread t .started else { s with crashed := true })
      else none
    | .rng t drawn =>
      if s.threads[t]? = some .started then
        some (if drawn then s.setThread t .asking else { s with crashed := true })
      else none
    | .take t =>
      if s.threads[t]? = some .asking then
        let idx := s.counter
        some ({ s with counter := s.counter + 1 }.setThread t (if idx ≥ s.nRequests then .exited else .requesting idx))
      else none
    | .exchange t file op r =>
      match s.threads[t]? with
      | some (.requesting idx) => (s.files[file]?).map fun path =>
        match r with
        | .error _ => { s with crashed := true }
        | .ok r =>
          let request : Asked := { idx := idx, demand := demandOf op path, ok := r.ok }
          { s with asked := s.asked ++ [request] }.setThread t (if r.ok then .asking else .failed)
      | _ => none
    | .note t =>
      if s.threads[t]? = some .failed then some ({ s with failures := s.failures + 1 }.setThread t .asking) else none

def run : List LoadAct → Load → Option Load
  | [], s => some s
  | a :: as, s => (s.step a).bind (run as)

def finished (s : Load) : Prop := s.seeds = [] ∧ ∀ p ∈ s.threads, p = .exited

def result (s : Load) : Bool := s.failures = 0

end Load

inductive LoadStep (s : Load) : Load → Prop
  | seed {path : Path} {rest : List Path} (ok : Bool) : s.seeds = path :: rest → LoadStep s { s with
      seeds := rest
      failures := if ok then s.failures else s.failures + 1
      seeded := s.seeded ++ [(path, ok)] }
  | spawn {t : Nat} : s.seeds = [] → s.threads[t]? = some .unstarted → LoadStep s (s.setThread t .started)
  | rng {t : Nat} : s.threads[t]? = some .started → LoadStep s (s.setThread t .asking)
  | leave {t : Nat} : s.threads[t]? = some .asking → s.nRequests ≤ s.counter →
      LoadStep s ({ s with counter := s.counter + 1 }.setThread t .exited)
  | take {t : Nat} : s.threads[t]? = some .asking → s.counter < s.nRequests →
      LoadStep s ({ s with counter := s.counter + 1 }.setThread t (.requesting s.counter))
  | exchange {t : Nat} {path : Path} (a : Asked) (op : Op) : s.threads[t]? = some (.requesting a.idx) →
      path ∈ s.files → a.demand = demandOf op path →
      LoadStep s ({ s with asked := s.asked ++ [a] }.setThread t (if a.ok then .asking else .failed))
  | note {t : Nat} : s.threads[t]? = some .failed →
      LoadStep s ({ s with failures := s.failures + 1 }.setThread t .asking)
  | crash : LoadStep s { s with crashed := true }

theorem loadStep_cases {a : LoadAct} {s s' : Load} (h : s.step a = some s') :
    s.crashed = false ∧ LoadStep s s' ∧ s'.crashed = a.throws := by
  unfold Load.step at h
  split at h
  · cases h
  · rename_i up
    have up : s.crashed = false := by simpa using up
    refine ⟨up, ?_⟩
    cases a with
    | seed r =>
      simp only at h
      split at h
      · cases h
      · split at h
        · cases h
          exact ⟨.crash, rfl⟩
        · rename_i r
          cases h
          exact ⟨.seed r.ok ‹_›, up⟩
    | spawn started =>
      simp only at h
      split at h
      · rename_i able
        cases started with
        | true =>
          cases h
          exact ⟨.spawn able.1 (List.getElem?_eq_some_iff.mpr ⟨able.2, List.getElem_idxOf able.2⟩), up⟩
        | false =>
          cases h
          exact ⟨.crash, rfl⟩
      · cases h
    | rng t drawn =>
      simp only at h
      split at h
      · cases drawn with
        | true =>
          cases h
          exact ⟨.rng ‹_›, up⟩
        | false =>
          cases h
          exact ⟨.crash, rfl⟩
      · cases h
    | take t =>
      simp only at h
      split at h
      · rename_i asks
        cases h
        refine ⟨?_, up⟩
        split
        · exact .leave asks ‹_›
        · exact .take asks (UInt64.not_le.mp ‹_›)
      · cases h
    | exchange t file op r =>
      simp only at h
      split at h
      · rename_i idx holds
        obtain ⟨path, hpath, rfl⟩ := Option.map_eq_some_iff.mp h
        cases r with
        | error e => exact ⟨.crash, rfl⟩
        | ok r => exact ⟨.exchange ⟨idx, demandOf op path, r.ok⟩ op holds (List.mem_of_getElem? hpath) rfl, up⟩
      · cases h
    | note t =>
      simp only at h
      split at h
      · cases h
        exact ⟨.note ‹_›, up⟩
      · cases h

def Loader.request : Loader → Option Nat
  | .requesting idx => some idx.toNat
  | _ => none

def Loader.exit : Loader → Option Unit
  | .exited => some ()
  | _ => none

def Loader.unnoted : Loader → Option Unit
  | .failed => some ()
  | _ => none

/-- The steps that a thread has before it, those of new requests left aside. -/
def Loader.rank : Loader → Nat
  | .unstarted => 3
  | .started => 2
  | .asking => 1
  | .requesting _ => 3
  | .failed => 2
  | .exited => 0

namespace Load

def indices (s : Load) : List Nat := s.asked.map fun a => a.idx.toNat

def broken (s : Load) : Nat := s.seeded.countP (fun e => !e.2) + s.asked.countP (fun a => !a.ok)

def labour (s : Load) : Nat := s.seeds.length + 3 * (s.nRequests.toNat - s.counter.toNat) + weight Loader.rank s.threads

def ahead (s : Load) : Nat := if s.crashed then 0 else s.labour + 1

end Load

/-- What holds of the load in every state, from `files` for `n` requests by `threads` threads. -/
structure Fair (files : List Path) (n threads : Nat) (s : Load) : Prop where
  workload : s.files = files
  wanted : s.nRequests.toNat = n
  pool : s.threads.length = threads
  counter : s.counter.toNat = min s.counter.toNat n + tally Loader.exit s.threads ()
  once : ∀ i, s.indices.count i + tally Loader.request s.threads i = if i < min s.counter.toNat n then 1 else 0
  drawn : ∀ a ∈ s.asked, ∃ op, ∃ path ∈ files, a.demand = demandOf op path
  seeds : s.seeded.map Prod.fst ++ s.seeds = files
  first : s.seeds ≠ [] → s.asked = [] ∧ ∀ p ∈ s.threads, p = .unstarted
  failures : s.failures.toNat + tally Loader.unnoted s.threads () = s.broken

section Fair
variable {files : List Path} {n threads : Nat} {s s' : Load}

theorem Fair.bounded (h : Fair files n threads s) : s.indices.length ≤ n := by
  have nodup : s.indices.Nodup := by
    rw [List.nodup_iff_count_le_one]
    intro i
    have once := h.once i
    split at once <;> omega
  have within : s.indices ⊆ List.range n := by
    intro i mem
    have once := h.once i
    have made := List.count_pos_iff.mpr mem
    rw [List.mem_range]
    split at once <;> omega
  simpa using nodup.length_le_of_subset within

theorem Fair.broken_le (h : Fair files n threads s) : s.broken + s.seeds.length ≤ files.length + n := by
  have bounded := h.bounded
  have seeds := congrArg List.length h.seeds
  have seeded := List.countP_le_length (p := fun e : Path × Bool => !e.2) (l := s.seeded)
  have asked := List.countP_le_length (p := fun a : Asked => !a.ok) (l := s.asked)
  simp only [Load.indices, List.length_map, List.length_append] at bounded seeds
  simp only [Load.broken]
  omega

theorem tally_le_length {α β : Type} [DecidableEq β] (f : α → Option β) (l : List α) (b : β) :
    tally f l b ≤ l.length := by
  induction l with
  | nil => exact Nat.le_refl _
  | cons a l ih =>
    have one := hit_le_one (f a) b
    rw [tally_cons, List.length_cons]
    omega

theorem tally_counted {α : Type} (f : α → Option Unit) {l : List α} {t : Nat} {x : α} (hx : l[t]? = some x)
    (none : f x = none) : tally f l () < l.length := by
  have without := tally_eraseIdx f () hx
  have bound := tally_le_length f (l.eraseIdx t) ()
  have inside := (List.getElem?_eq_some_iff.mp hx).1
  rw [none, hit_none] at without
  rw [List.length_eraseIdx_of_lt inside] at bound
  omega

theorem Fair.next (h : Fair files n threads s) (countable : files.length + n + threads < 2 ^ 64) {t : Nat}
    (ht : s.threads[t]? = some .asking) : (s.counter + 1).toNat = s.counter.toNat + 1 := by
  have room := tally_counted Loader.exit ht rfl
  have counter := h.counter
  have pool := h.pool
  rw [UInt64.toNat_add, UInt64.toNat_one, Nat.mod_eq_of_lt]
  omega

theorem Fair.seeded_all (h : Fair files n threads s) {t : Nat} {p : Loader} (ht : s.threads[t]? = some p) (going : p ≠ .unstarted) :
    s.seeds = [] := by
  by_contra more
  exact going ((h.first more).2 p (List.mem_of_getElem? ht))

theorem Fair.threads_step (h : Fair files n threads s) {t : Nat} {x y : Loader} (ht : s.threads[t]? = some x)
    (pool : s'.threads = s.threads.set t y) (workload : s'.files = s.files) (wanted : s'.nRequests = s.nRequests)
    (seeds : s'.seeds = s.seeds) (seeded : s'.seeded = s.seeded) (over_ : s.seeds = [])
    (counter : s'.counter.toNat + hit x.exit () = min s'.counter.toNat n + tally Loader.exit s.threads () + hit y.exit ())
    (once : ∀ i, s'.indices.count i + tally Loader.request s.threads i + hit y.request i =
      (if i < min s'.counter.toNat n then 1 else 0) + hit x.request i)
    (drawn : ∀ a ∈ s'.asked, ∃ op, ∃ path ∈ files, a.demand = demandOf op path)
    (failures : s'.failures.toNat + tally Loader.unnoted s.threads () + hit y.unnoted () = s'.broken + hit x.unnoted ()) :
    Fair files n threads s' where
  workload := workload.trans h.workload
  wanted := wanted ▸ h.wanted
  pool := by rw [pool, List.length_set, h.pool]
  counter := by
    have moved := tally_set Loader.exit () ht y
    rw [pool]
    omega
  once i := by
    have moved := tally_set Loader.request i ht y
    have once := once i
    rw [pool]
    omega
  drawn := drawn
  seeds := by rw [seeds, seeded, h.seeds]
  first more := absurd (seeds.trans over_) more
  failures := by
    have moved := tally_set Loader.unnoted () ht y
    rw [pool]
    omega

theorem Load.broken_asked (a : Asked) (h : s'.asked = s.asked ++ [a]) (seeded : s'.seeded = s.seeded) :
    s'.broken = s.broken + if a.ok then 0 else 1 := by
  simp only [Load.broken, h, seeded, List.countP_append, List.countP_singleton]
  cases a.ok <;> simp [Nat.add_assoc]

theorem Fair.step (h : Fair files n threads s) (countable : files.length + n + threads < 2 ^ 64)
    (step : LoadStep s s') : Fair files n threads s' := by
  have counter := h.counter
  have wanted := h.wanted
  cases step with
  | @seed path rest ok hseeds =>
    have few := h.broken_le
    have failures := h.failures
    have seeds := h.seeds
    obtain ⟨unasked, unstarted⟩ := h.first (by simp [hseeds])
    have none : tally Loader.unnoted s.threads () = 0 :=
      tally_eq_zero _ _ fun p hp => by simp [unstarted p hp, Loader.unnoted]
    rw [hseeds] at few seeds
    rw [List.length_cons] at few
    refine ⟨h.workload, wanted, h.pool, counter, h.once, h.drawn, ?_, fun _ => ⟨unasked, unstarted⟩, ?_⟩
    · simpa using seeds
    · have broken : s.broken + (if ok then 0 else 1) = Load.broken { s with seeded := s.seeded ++ [(path, ok)] } := by
        simp only [Load.broken, List.countP_append, List.countP_singleton]
        cases ok <;> simp [Nat.add_right_comm]
      change (if ok then s.failures else s.failures + 1).toNat + _ = Load.broken { s with seeded := s.seeded ++ [(path, ok)] }
      rw [← broken, none]
      cases ok with
      | true =>
        simp only [if_true]
        omega
      | false =>
        simp only [Bool.false_eq_true, if_false]
        rw [UInt64.toNat_add, UInt64.toNat_one, Nat.mod_eq_of_lt] <;> omega
  | @spawn t over_ ht =>
    refine h.threads_step ht rfl rfl rfl rfl rfl over_ ?_ (fun i => ?_) h.drawn h.failures
    · change s.counter.toNat + 0 = min s.counter.toNat n + _ + 0
      omega
    · exact h.once i
  | @rng t ht =>
    refine h.threads_step ht rfl rfl rfl rfl rfl (h.seeded_all ht (by simp)) ?_ (fun i => ?_) h.drawn h.failures
    · change s.counter.toNat + 0 = min s.counter.toNat n + _ + 0
      omega
    · exact h.once i
  | @leave t ht done =>
    have over_ := h.seeded_all ht (by simp)
    have next := h.next countable ht
    rw [UInt64.le_iff_toNat_le] at done
    refine h.threads_step ht rfl rfl rfl rfl rfl over_ ?_ (fun i => ?_) h.drawn h.failures
    · change (s.counter + 1).toNat + 0 = min (s.counter + 1).toNat n + _ + 1
      omega
    · have once := h.once i
      have same : min (s.counter + 1).toNat n = min s.counter.toNat n := by omega
      change s.indices.count i + _ + 0 = (if i < min (s.counter + 1).toNat n then 1 else 0) + 0
      rw [same]
      exact once
  | @take t ht more =>
    have over_ := h.seeded_all ht (by simp)
    have next := h.next countable ht
    rw [UInt64.lt_iff_toNat_lt] at more
    refine h.threads_step ht rfl rfl rfl rfl rfl over_ ?_ (fun i => ?_) h.drawn h.failures
    · change (s.counter + 1).toNat + 0 = min (s.counter + 1).toNat n + _ + 0
      omega
    · have once := h.once i
      change s.indices.count i + _ + hit (some s.counter.toNat) i = (if i < min (s.counter + 1).toNat n then 1 else 0) + 0
      rw [hit_some]
      split at once <;> split <;> split <;> omega
  | @exchange t path a op ht mem demand =>
    have over_ := h.seeded_all ht (by simp)
    refine h.threads_step ht rfl rfl rfl rfl rfl over_ ?_ (fun i => ?_) (fun b hb => ?_) ?_
    · have still : (if a.ok then Loader.asking else .failed).exit = none := by split <;> rfl
      rw [still]
      change s.counter.toNat + 0 = min s.counter.toNat n + _ + 0
      omega
    · have still : (if a.ok then Loader.asking else .failed).request = none := by split <;> rfl
      have once := h.once i
      rw [still]
      change (List.map (fun a : Asked => a.idx.toNat) (s.asked ++ [a])).count i + _ + 0 = _ + hit (some a.idx.toNat) i
      change _ = (if i < min s.counter.toNat n then 1 else 0) + hit (some a.idx.toNat) i
      rw [← once, List.map_append, List.count_append, List.map_singleton, List.count_singleton, hit_some]
      simp only [Load.indices, beq_iff_eq]
      omega
    · rcases List.mem_append.mp hb with hb | hb
      · exact h.drawn b hb
      · cases List.mem_singleton.mp hb
        exact ⟨op, path, h.workload ▸ mem, demand⟩
    · have failures := h.failures
      have broken : Load.broken ({ s with asked := s.asked ++ [a] }.setThread t (if a.ok then .asking else .failed)) =
          s.broken + if a.ok then 0 else 1 := Load.broken_asked a rfl rfl
      rw [broken]
      change s.failures.toNat + _ + _ = _ + 0
      cases a.ok with
      | true =>
        change s.failures.toNat + _ + 0 = s.broken + 0 + 0
        omega
      | false =>
        change s.failures.toNat + _ + 1 = s.broken + 1 + 0
        omega
  | @note t ht =>
    have over_ := h.seeded_all ht (by simp)
    have few := h.broken_le
    have failures := h.failures
    have counted := tally_pos Loader.unnoted () (List.mem_of_getElem? ht) rfl
    refine h.threads_step ht rfl rfl rfl rfl rfl over_ ?_ (fun i => ?_) h.drawn ?_
    · change s.counter.toNat + 0 = min s.counter.toNat n + _ + 0
      omega
    · exact h.once i
    · change (s.failures + 1).toNat + _ + 0 = s.broken + 1
      rw [UInt64.toNat_add, UInt64.toNat_one, Nat.mod_eq_of_lt] <;> omega
  | crash => exact ⟨h.workload, wanted, h.pool, counter, h.once, h.drawn, h.seeds, h.first, h.failures⟩

theorem Fair.lowers (h : Fair files n threads s) (countable : files.length + n + threads < 2 ^ 64)
    (up : s.crashed = false) (step : LoadStep s s') : s'.ahead < s.ahead := by
  have lower : s'.labour < s.labour → s'.ahead < s.ahead := by
    intro less
    simp only [Load.ahead, up, Bool.false_eq_true, if_false]
    split <;> omega
  have moved : ∀ {t : Nat} {x : Loader} (y : Loader), s.threads[t]? = some x → y.rank < x.rank →
      weight Loader.rank (s.threads.set t y) < weight Loader.rank s.threads := by
    intro t x y ht less
    have lighter := weight_set Loader.rank ht y
    omega
  cases step with
  | seed ok hseeds =>
    refine lower ?_
    simp only [Load.labour, hseeds, List.length_cons]
    omega
  | spawn _ ht => exact lower (Nat.add_lt_add_left (moved .started ht (by decide)) _)
  | rng ht => exact lower (Nat.add_lt_add_left (moved .asking ht (by decide)) _)
  | @leave t ht done =>
    have next := h.next countable ht
    have lighter := moved .exited ht (by decide)
    refine lower ?_
    change s.seeds.length + 3 * (s.nRequests.toNat - (s.counter + 1).toNat) +
      weight Loader.rank (s.threads.set t .exited) < s.labour
    simp only [Load.labour]
    omega
  | @take t ht more =>
    have next := h.next countable ht
    have heavier := weight_set Loader.rank ht (.requesting s.counter)
    rw [UInt64.lt_iff_toNat_lt] at more
    refine lower ?_
    change s.seeds.length + 3 * (s.nRequests.toNat - (s.counter + 1).toNat) +
      weight Loader.rank (s.threads.set t (.requesting s.counter)) < s.labour
    simp only [Loader.rank] at heavier
    simp only [Load.labour]
    omega
  | exchange a op ht mem demand =>
    have rank : (if a.ok then Loader.asking else .failed).rank < 3 := by split <;> decide
    exact lower (Nat.add_lt_add_left (moved _ ht rank) _)
  | note ht => exact lower (Nat.add_lt_add_left (moved .asking ht (by decide)) _)
  | crash =>
    simp only [Load.ahead, up, if_true, Bool.false_eq_true, if_false]
    exact Nat.succ_pos _

theorem Fair.run (h : Fair files n threads s) (countable : files.length + n + threads < 2 ^ 64) {as : List LoadAct}
    (run : s.run as = some s') : Fair files n threads s' := by
  induction as generalizing s with
  | nil =>
    cases run
    exact h
  | cons a as ih =>
    obtain ⟨u, taken, rest⟩ := Option.bind_eq_some_iff.mp run
    exact ih (h.step countable (loadStep_cases taken).2.1) rest

theorem Load.run_crashed (up : s.crashed = false) {as : List LoadAct} (run : s.run as = some s') :
    s'.crashed = as.any LoadAct.throws := by
  induction as generalizing s with
  | nil =>
    cases run
    exact up
  | cons a as ih =>
    obtain ⟨u, taken, run⟩ := Option.bind_eq_some_iff.mp run
    have first := (loadStep_cases taken).2.2
    rw [List.any_cons, ← first]
    cases crashed : u.crashed with
    | false => exact ih crashed run
    | true =>
      -- Nothing is done after a crash.
      cases as with
      | nil =>
        cases run
        exact crashed
      | cons b bs =>
        obtain ⟨v, taken', -⟩ := Option.bind_eq_some_iff.mp run
        rw [(loadStep_cases taken').1] at crashed
        cases crashed

theorem Fair.able (h : Fair files n threads s) (some_ : files ≠ []) :
    s.crashed = true ∨ s.finished ∨ ∃ t a, s.step a = some t := by
  cases up : s.crashed with
  | true => exact .inl rfl
  | false =>
    refine .inr ?_
    by_cases seeding : s.seeds = []
    · by_cases over_ : ∀ p ∈ s.threads, p = .exited
      · exact .inl ⟨seeding, over_⟩
      · push Not at over_
        obtain ⟨p, hp, going⟩ := over_
        obtain ⟨t, ht⟩ := List.getElem?_of_mem hp
        cases p with
        | unstarted =>
          have first := List.idxOf_lt_length_iff.mpr hp
          exact .inr ⟨_, .spawn true, by simp only [Load.step, up, seeding, first]; rfl⟩
        | started => exact .inr ⟨_, .rng t true, by simp only [Load.step, up, ht]; rfl⟩
        | asking => exact .inr ⟨_, .take t, by simp only [Load.step, up, ht]; rfl⟩
        | requesting idx =>
          obtain ⟨path, hpath⟩ := List.exists_mem_of_ne_nil _ (h.workload ▸ some_)
          obtain ⟨file, hfile⟩ := List.getElem?_of_mem hpath
          exact .inr ⟨_, .exchange t file .get (.ok {}), by simp only [Load.step, up, ht, hfile, Option.map_some]; rfl⟩
        | failed => exact .inr ⟨_, .note t, by simp only [Load.step, up, ht]; rfl⟩
        | exited => exact absurd rfl going
    · obtain ⟨path, rest, hseeds⟩ := List.exists_cons_of_ne_nil seeding
      exact .inr ⟨_, .seed (.ok {}), by simp only [Load.step, up, hseeds]; rfl⟩

end Fair

theorem listWorkloadFiles_perm (dir : Path) (entries : Option (List DirEntry)) :
    (listWorkloadFiles dir entries).Perm (regularFiles dir (entries.getD [])) := by
  cases entries with
  | none => exact List.Perm.refl _
  | some es => exact List.perm_insertionSort _ _

theorem listWorkloadFiles_sorted (dir : Path) (entries : Option (List DirEntry)) :
    (listWorkloadFiles dir entries).Pairwise (· ≤ ·) := by
  cases entries with
  | none => exact List.Pairwise.nil
  | some es => exact List.pairwise_insertionSort _ _

structure Loaded (dir : Path) (entries : List DirEntry) (n : Nat) (s : Load) : Prop where
  seeded : (s.seeded.map Prod.fst).Perm (regularFiles dir entries)
  sorted : (s.seeded.map Prod.fst).Pairwise (· ≤ ·)
  each : s.indices.Perm (List.range n)
  drawn : ∀ a ∈ s.asked, ∃ op, ∃ path ∈ regularFiles dir entries, a.demand = demandOf op path
  result : s.result = true ↔ (∀ e ∈ s.seeded, e.2 = true) ∧ ∀ a ∈ s.asked, a.ok = true

section Run
variable {dir : Path} {entries : Option (List DirEntry)} {n threads : Nat} {s t : Load}

theorem Fair.loaded (h : Fair (listWorkloadFiles dir entries) n threads s) (staffed : 0 < threads)
    (finished : s.finished) : Loaded dir (entries.getD []) n s := by
  have counter := h.counter
  have seeds := h.seeds
  rw [finished.1, List.append_nil] at seeds
  have all : s.threads = List.replicate threads .exited := List.eq_replicate_iff.mpr ⟨h.pool, finished.2⟩
  have exits : 0 < tally Loader.exit s.threads () :=
    tally_pos Loader.exit () (all ▸ List.mem_replicate.mpr ⟨staffed.ne', rfl⟩) rfl
  have noted : tally Loader.unnoted s.threads () = 0 :=
    tally_eq_zero _ _ fun p hp => by simp [finished.2 p hp, Loader.unnoted]
  have perm := listWorkloadFiles_perm dir entries
  refine ⟨seeds ▸ perm, seeds ▸ listWorkloadFiles_sorted dir entries, ?_, fun a ha => ?_, ?_⟩
  · rw [List.perm_iff_count]
    intro i
    have drawn : tally Loader.request s.threads i = 0 :=
      tally_eq_zero _ _ fun p hp => by simp [finished.2 p hp, Loader.request]
    have once := h.once i
    have most : min s.counter.toNat n = n := by omega
    rw [drawn, most, Nat.add_zero] at once
    rw [once, List.count_range]
  · obtain ⟨op, path, mem, demand⟩ := h.drawn a ha
    exact ⟨op, path, perm.mem_iff.mp mem, demand⟩
  · have failures := h.failures
    have none : s.result = true ↔ s.broken = 0 := by
      rw [Load.result, decide_eq_true_iff, ← UInt64.toNat_inj, UInt64.toNat_zero]
      omega
    rw [none, Load.broken, Nat.add_eq_zero_iff, List.countP_eq_zero, List.countP_eq_zero]
    simp

theorem tally_waiting {β : Type} [DecidableEq β] (f : Loader → Option β) (h : f .unstarted = none) (k : Nat) (b : β) :
    tally f (List.replicate k Loader.unstarted) b = 0 :=
  tally_eq_zero _ _ fun p hp => by simp [List.eq_of_mem_replicate hp, h]

theorem Fair.start {nRequests : UInt64} {clientThreads : Int} (h : Load.start dir entries nRequests clientThreads = some s) :
    Fair (listWorkloadFiles dir entries) nRequests.toNat s.threads.length s ∧ 0 < s.threads.length ∧
      listWorkloadFiles dir entries ≠ [] ∧ s.crashed = false := by
  unfold Load.start at h
  simp only at h
  split at h
  · cases h
  · rename_i some_
    cases h
    refine ⟨⟨rfl, rfl, rfl, ?_, fun i => ?_, (fun a ha => by cases ha), rfl, fun _ => ⟨rfl, fun p hp => ?_⟩, ?_⟩,
      ?_, some_, rfl⟩
    · simp [tally_waiting Loader.exit rfl]
    · simp [tally_waiting Loader.request rfl, Load.indices]
    · exact List.eq_of_mem_replicate hp
    · simp [tally_waiting Loader.unnoted rfl, Load.broken]
    · rw [List.length_replicate]
      split <;> omega

/-- Whatever the order of the threads, the files they draw and the answers they get: the files are
seeded in order before any request, no request is made twice, and the load comes to its end with
every request made, and says whether all went well. An exception may end it before. -/
theorem load_winds {nRequests : UInt64} {clientThreads : Int} (h : Load.start dir entries nRequests clientThreads = some s)
    (countable : s.files.length + nRequests.toNat + s.threads.length < 2 ^ 64) {as : List LoadAct} (run : s.run as = some t) :
    t.seeded.map Prod.fst ++ t.seeds = listWorkloadFiles dir entries ∧ (t.asked ≠ [] → t.seeds = []) ∧ t.indices.Nodup ∧
      t.crashed = as.any LoadAct.throws ∧
      Winds (fun _ _ => False) (fun u v => ∃ a, u.step a = some v)
        (fun u => u.crashed = true ∨ u.finished ∧ Loaded dir (entries.getD []) nRequests.toNat u) t := by
  obtain ⟨fair, staffed, some_, up⟩ := Fair.start h
  rw [fair.workload] at countable
  have kept : Fair (listWorkloadFiles dir entries) nRequests.toNat s.threads.length t := fair.run countable run
  refine ⟨kept.seeds, fun asked => ?_, ?_, Load.run_crashed up run, ?_⟩
  · by_contra seeding
    exact asked (kept.first seeding).1
  · rw [List.nodup_iff_count_le_one]
    intro i
    have once := kept.once i
    split at once <;> omega
  · have idle : ∀ u v, Fair (listWorkloadFiles dir entries) nRequests.toNat s.threads.length u → False →
        Fair (listWorkloadFiles dir entries) nRequests.toNat s.threads.length v ∧ v.ahead = u.ahead :=
      fun _ _ _ idle => idle.elim
    have busy : ∀ u v, Fair (listWorkloadFiles dir entries) nRequests.toNat s.threads.length u →
        (∃ a, u.step a = some v) →
        Fair (listWorkloadFiles dir entries) nRequests.toNat s.threads.length v ∧ v.ahead < u.ahead := by
      intro u v fair taken
      obtain ⟨a, taken⟩ := taken
      obtain ⟨up, step, -⟩ := loadStep_cases taken
      exact ⟨fair.step countable step, fair.lowers countable up step⟩
    apply winds_of_measure idle busy
    · intro u fair
      rcases fair.able some_ with crashed | finished | able
      · exact .inl (.inl crashed)
      · exact .inl (.inr ⟨finished, fair.loaded staffed finished⟩)
      · exact .inr able
    · exact kept

theorem load_winds_pair : ∃ s t,
    Load.start [100] (some [⟨[98], true⟩, ⟨[46], false⟩, ⟨[97], true⟩]) 2 2 = some s ∧
      s.run [.seed (.ok { ok := true }), .seed (.ok { ok := true }), .spawn true, .rng 0 true, .take 0, .spawn true,
        .rng 1 true, .take 1, .exchange 1 0 .get (.ok { ok := true })] = some t ∧
      t.seeded = [([100, 47, 97], true), ([100, 47, 98], true)] ∧ t.indices = [1] ∧ t.crashed = false ∧
      (t.asked ≠ [] → t.seeds = []) ∧ t.indices.Nodup ∧
      Winds (fun _ _ => False) (fun u v => ∃ a, u.step a = some v)
        (fun u => u.crashed = true ∨ u.finished ∧ Loaded [100] [⟨[98], true⟩, ⟨[46], false⟩, ⟨[97], true⟩] 2 u) t := by
  have begun : (Load.start [100] (some [⟨[98], true⟩, ⟨[46], false⟩, ⟨[97], true⟩]) 2 2).map
      (fun s => (s.files.length, s.threads.length)) = some (2, 2) := by decide +kernel
  have made : ((Load.start [100] (some [⟨[98], true⟩, ⟨[46], false⟩, ⟨[97], true⟩]) 2 2).bind
      (Load.run [.seed (.ok { ok := true }), .seed (.ok { ok := true }), .spawn true, .rng 0 true, .take 0, .spawn true,
        .rng 1 true, .take 1, .exchange 1 0 .get (.ok { ok := true })])).map
        (fun t => (t.seeded, t.indices)) = some ([([100, 47, 97], true), ([100, 47, 98], true)], [1]) := by decide +kernel
  obtain ⟨t, run, facts⟩ := Option.map_eq_some_iff.mp made
  obtain ⟨s, start, run⟩ := Option.bind_eq_some_iff.mp run
  simp only [start, Option.map_some, Option.some.injEq, Prod.mk.injEq] at begun
  simp only [Prod.mk.injEq] at facts
  have countable : s.files.length + (2 : UInt64).toNat + s.threads.length < 2 ^ 64 := by
    rw [begun.1, begun.2]
    decide
  obtain ⟨-, first, once, crashed, winds⟩ := load_winds start countable run
  exact ⟨s, t, start, run, facts.1, facts.2, crashed, first, once, winds⟩

end Run

end LinkScheduling
