import LinkScheduling.GetRound

/-! A request served to its end, as `run_get` of the tests does it: `serve_slice` is called
until it returns something else than PREEMPTED. `GetRun` follows a GET from round to round
when no call fails. -/

namespace LinkScheduling
open Effect Lines

/-- The outcome of one call of `serve_slice`. -/
abbrev Round := Outcome Fault Job Event SliceResult

/-- Call `x` until it returns something else than PREEMPTED, at most `fuel` times. -/
def callRounds (x : Slice SliceResult) : Nat → Job → List Round
  | 0, _ => []
  | fuel + 1, j =>
    let o := x j
    match o.value with
    | .ok .preempted => o :: callRounds x fuel o.state
    | _ => [o]

def serveRounds (fd : Int) (sp : SliceParams) : Nat → Job → List Round := callRounds (serveSlice fd sp)

theorem callRounds_preempted {x : Slice SliceResult} {j : Job} (fuel : Nat)
    (h : (x j).value = .ok .preempted) :
    callRounds x (fuel + 1) j = x j :: callRounds x fuel (x j).state := by
  simp only [callRounds, h]

theorem callRounds_over {x : Slice SliceResult} {j : Job} (fuel : Nat)
    (h : (x j).value ≠ .ok .preempted) : callRounds x (fuel + 1) j = [x j] := by
  simp only [callRounds]

theorem serveSlice_get (fd : Int) (sp : SliceParams) {j : Job} (h : j.req.op = .get) :
    serveSlice fd sp j = serveGet fd sp j := by
  simp only [serveSlice, bind, Prog.bind, request, h, List.nil_append]

theorem serveSlice_put (fd : Int) (sp : SliceParams) {j : Job} (h : j.req.op = .put) :
    serveSlice fd sp j = servePut fd sp j := by
  simp only [serveSlice, bind, Prog.bind, request, h, List.nil_append]

theorem max_one_ceilDiv {n q k : Nat} (hq : 0 < q) (covers : n ≤ (k + 1) * q)
    (needed : k = 0 ∨ k * q < n) : k + 1 = max 1 ((n + q - 1) / q) := by
  have upper : (n + q - 1) / q < k + 2 := by
    rw [Nat.div_lt_iff_lt_mul hq, Nat.succ_mul]
    omega
  rcases needed with rfl | needed
  · omega
  · have lower : k + 1 ≤ (n + q - 1) / q := by
      rw [Nat.le_div_iff_mul_le hq, Nat.succ_mul]
      omega
    omega

def roundBytes (fd : Int) : Job → List Round → List Bytes
  | _, [] => []
  | j, o :: os => (o.state.os.sent fd).drop (j.os.sent fd).length :: roundBytes fd o.state os

def roundsA14 (rounds : List Round) : List (Nat × Bytes × UInt64 × UInt64) :=
  (rounds.map fun o => a14Of o.log).flatten

/-- The rounds of a GET from the moment when `before` has been sent and `ls` remains. -/
inductive GetRun (fd : Int) (sp : SliceParams) (c : Bytes) :
    List Bytes → List Bytes → Job → List Round → Prop
  | last {before ls : List Bytes} {j : Job} {o : Round} : o.value = .ok .done →
      GetRound fd sp c before ls j .done o.state o.log → (roundOf sp j.req.deficit ls).2 = [] →
      GetRun fd sp c before ls j [o]
  | more {before ls : List Bytes} {j : Job} {o : Round} {os : List Round} :
      o.value = .ok .preempted → GetRound fd sp c before ls j .preempted o.state o.log →
      (roundOf sp j.req.deficit ls).2 ≠ [] →
      GetRun fd sp c (before ++ (roundOf sp j.req.deficit ls).1) (roundOf sp j.req.deficit ls).2
        o.state os →
      GetRun fd sp c before ls j (o :: os)

/-- A bound on the rounds still to come after the present one: the lines left or, under drr,
the bytes left that the deficit does not cover. -/
def roundsLeft (sp : SliceParams) (deficit : UInt64) (ls : List Bytes) : Nat :=
  match sp.policy with
  | .fcfs | .sjf => 0
  | .rr => ls.length
  | .drr => ls.flatten.length - deficit.toNat

theorem drr_unfinished {sp : SliceParams} {deficit : UInt64} {ls : List Bytes}
    (hp : sp.policy = .drr) (small : ls.flatten.length < offLimit)
    (h : (roundOf sp deficit ls).2 ≠ []) :
    deficit.toNat + sp.quantum.toNat < ls.flatten.length ∧
      (allowance sp deficit - UInt64.ofNat (roundOf sp deficit ls).1.flatten.length).toNat +
        (roundOf sp deficit ls).1.flatten.length = deficit.toNat + sp.quantum.toNat := by
  have bound : offLimit = 2 ^ 63 := rfl
  have sum := allowance_drr hp deficit
  simp only [roundOf, hp] at h ⊢
  have beyond : (allowance sp deficit).toNat < ls.flatten.length := by
    rw [ne_eq, Packing.fit_eq_all_iff, total_length] at h
    omega
  have fits := Packing.total_fit_le List.length (allowance sp deficit).toNat ls
  rw [total_length] at fits
  have length : (UInt64.ofNat (Packing.fit List.length (allowance sp deficit).toNat ls).1.flatten.length).toNat =
      (Packing.fit List.length (allowance sp deficit).toNat ls).1.flatten.length := by
    rw [UInt64.toNat_ofNat']
    omega
  refine ⟨by omega, ?_⟩
  rw [UInt64.toNat_sub_of_le _ _ (UInt64.le_iff_toNat_le.mpr (by omega)), length]
  omega

theorem roundsLeft_lt (r : Request) {sp : SliceParams} {ls : List Bytes}
    (small : ls.flatten.length < offLimit) (hq : bounded sp.policy = true → 0 < sp.quantum.toNat)
    (h : (roundOf sp r.deficit ls).2 ≠ []) :
    roundsLeft sp (served sp (begun r) (roundOf sp r.deficit ls).1 (roundOf sp r.deficit ls).2).deficit
      (roundOf sp r.deficit ls).2 < roundsLeft sp r.deficit ls := by
  have split := roundOf_append sp r.deficit ls
  cases hp : sp.policy with
  | fcfs => simp [roundOf, hp] at h
  | sjf => simp [roundOf, hp] at h
  | rr =>
    simp only [roundsLeft, hp]
    simp only [roundOf, hp] at h ⊢
    cases ls with
    | nil => simp at h
    | cons line rest => exact Packing.length_round_snd_lt _ _ _ _
  | drr =>
    obtain ⟨beyond, sum⟩ := drr_unfinished hp small h
    have pos := hq (by simp [bounded, hp])
    have short : longFirst sp (roundOf sp r.deficit ls).1 = false := by
      cases (roundOf sp r.deficit ls).1 <;> simp [longFirst, hp]
    have total := congrArg (fun x => x.flatten.length) split
    simp only [List.flatten_append, List.length_append] at total
    have deficit : (served sp (begun r) (roundOf sp r.deficit ls).1 (roundOf sp r.deficit ls).2).deficit =
        allowance sp r.deficit - UInt64.ofNat (roundOf sp r.deficit ls).1.flatten.length := by
      simp only [served, short, if_neg h, hp, begun]
      simp
    rw [deficit]
    simp only [roundsLeft, hp]
    omega

theorem serveRounds_get {fd : Int} {sp : SliceParams} {c : Bytes} {before ls : List Bytes} {j : Job}
    (h : Serving c before ls j) (hop : j.req.op = .get) (hob : j.Obliging)
    (hq : bounded sp.policy = true → 0 < sp.quantum.toNat) {fuel : Nat}
    (enough : roundsLeft sp j.req.deficit ls < fuel) :
    GetRun fd sp c before ls j (serveRounds fd sp fuel j) := by
  induction fuel generalizing before ls j with
  | zero => omega
  | succ fuel ih =>
    have run := serveSlice_get fd sp hop
    obtain ⟨res, value, round⟩ := (serveGet_succeeds sp h).of_tame (serveGet_tame fd sp) hob
    have obliging := (serveGet_tame fd sp j hob).1
    rw [← run] at value round obliging
    have result := round.result
    by_cases hrest : (roundOf sp j.req.deficit ls).2 = []
    · rw [if_pos hrest] at result
      subst result
      rw [serveRounds, callRounds_over fuel (by simp [value])]
      exact .last value round hrest
    · rw [if_neg hrest] at result
      subst result
      rw [serveRounds, callRounds_preempted fuel value]
      have small := h.small
      have total := h.length
      have fewer := roundsLeft_lt j.req (by omega) hq hrest
      have req := round.req
      refine .more value round hrest (ih round.serving ?_ obliging ?_)
      · rw [req]
        exact hop
      · rw [req]
        omega

/-- If a PREEMPTED round from a state in `P` ends in `R`, and `R` is within `P`, then every
PREEMPTED round of a run ends in `R` and the last round begins in `P`. -/
theorem GetRun.ends {fd : Int} {sp : SliceParams} {c : Bytes} {before ls : List Bytes} {j : Job}
    {rounds : List Round} (P R : List Bytes → List Bytes → Job → Prop)
    (step : ∀ before ls j j' l, P before ls j → GetRound fd sp c before ls j .preempted j' l →
      (roundOf sp j.req.deficit ls).2 ≠ [] →
        R (before ++ (roundOf sp j.req.deficit ls).1) (roundOf sp j.req.deficit ls).2 j')
    (within : ∀ before ls j, R before ls j → P before ls j)
    (run : GetRun fd sp c before ls j rounds) (start : P before ls j) :
    ∃ front last, rounds = front ++ [last] ∧
      (∀ o ∈ front, o.value = .ok .preempted ∧ ∃ before' ls', R before' ls' o.state ∧ ls' ≠ []) ∧
      last.value = .ok .done ∧ ∃ before' ls' j', P before' ls' j' ∧
        GetRound fd sp c before' ls' j' .done last.state last.log ∧
          (roundOf sp j'.req.deficit ls').2 = [] := by
  induction run with
  | last value round finished => exact ⟨[], _, rfl, by simp, value, _, _, _, start, round, finished⟩
  | more value round unfinished _ ih =>
    have next := step _ _ _ _ _ start round unfinished
    obtain ⟨front, last, rfl, states, done, final⟩ := ih (within _ _ _ next)
    refine ⟨_ :: front, last, rfl, ?_, done, final⟩
    intro o ho
    rcases List.mem_cons.mp ho with rfl | ho
    · exact ⟨value, _, _, next, unfinished⟩
    · exact states o ho

theorem GetRun.round_of_mem {fd : Int} {sp : SliceParams} {c : Bytes} {before ls : List Bytes} {j : Job}
    {rounds : List Round} (run : GetRun fd sp c before ls j rounds) (o : Round) (h : o ∈ rounds) :
    ∃ before' ls' j' res, GetRound fd sp c before' ls' j' res o.state o.log := by
  induction run with
  | last _ round _ =>
    rw [List.mem_singleton.mp h]
    exact ⟨_, _, _, _, round⟩
  | more _ round _ _ ih =>
    rcases List.mem_cons.mp h with rfl | h
    · exact ⟨_, _, _, _, round⟩
    · exact ih h

theorem GetRun.count {fd : Int} {sp : SliceParams} {c : Bytes} {before ls : List Bytes} {j : Job}
    {rounds : List Round} (run : GetRun fd sp c before ls j rounds) (k : Nat) (o : Round)
    (h : rounds[k]? = some o) : o.state.req.rounds = j.req.rounds + k + 1 := by
  induction run generalizing k with
  | last _ round _ =>
    cases k with
    | zero =>
      cases h
      rw [round.req]
      rfl
    | succ k => simp at h
  | more _ round _ _ ih =>
    have first := congrArg Request.rounds round.req
    cases k with
    | zero =>
      cases h
      rw [first]
      rfl
    | succ k =>
      rw [ih k (by simpa using h), first]
      change _ + 1 + k + 1 = _
      omega

/-- A GET as `admit_connection` enqueues it, with `c` the content of the open file. -/
structure FreshGet (c : Bytes) (j : Job) : Prop where
  op : j.req.op = .get
  content : j.os.files.contentOf j.req.fileFd = some c
  size : j.req.bytes.toNat = c.length
  small : c.length < offLimit
  byteOffset : j.req.byteOffset = 0
  rounds : j.req.rounds = 0
  forfeitedBytes : j.req.forfeitedBytes = 0
  deficit : j.req.deficit = 0
  started : j.req.started = false

theorem FreshGet.serving {c : Bytes} {j : Job} (h : FreshGet c j) :
    Serving c [] (lines newline c) j where
  content := h.content
  size := h.size
  small := h.small
  cut := rfl
  offset := by rw [h.byteOffset]; rfl

theorem length_lines_le (c : Bytes) : (lines newline c).length ≤ c.length := by
  have pos : ∀ ls : List Bytes, (∀ l ∈ ls, l ≠ []) → ls.length ≤ ls.flatten.length := by
    intro ls
    induction ls with
    | nil => simp
    | cons l ls ih =>
      intro h
      have first := List.length_pos_iff.mpr (h l List.mem_cons_self)
      have rest := ih fun x hx => h x (List.mem_cons_of_mem _ hx)
      simp only [List.flatten_cons, List.length_append, List.length_cons]
      omega
  have := pos (lines newline c) fun _ => lines_ne_nil
  rwa [lines_flatten] at this

theorem FreshGet.run {c : Bytes} {j : Job} (h : FreshGet c j) (hob : j.Obliging) (fd : Int)
    {sp : SliceParams} (hq : bounded sp.policy = true → 0 < sp.quantum.toNat) {fuel : Nat}
    (enough : c.length < fuel) :
    GetRun fd sp c [] (lines newline c) j (serveRounds fd sp fuel j) := by
  refine serveRounds_get h.serving h.op hob hq ?_
  have few := length_lines_le c
  unfold roundsLeft
  cases sp.policy with
  | fcfs => exact Nat.lt_of_le_of_lt (Nat.zero_le _) enough
  | sjf => exact Nat.lt_of_le_of_lt (Nat.zero_le _) enough
  | rr => exact Nat.lt_of_le_of_lt few enough
  | drr =>
    simp only [lines_flatten]
    omega

/-- A GET of the only file of a directory, which has been opened as descriptor 0. -/
def singleGet (name c : Bytes) (script : List Reply) : Job where
  req := { id := 1, filename := name, bytes := UInt64.ofNat c.length, path := name, fileFd := 0 }
  os := Os.start ((Files.single name c).openRead 0 Nat.one_pos) script

theorem singleGet_fresh (name : Bytes) {c : Bytes} (script : List Reply) (small : c.length < offLimit) :
    FreshGet c (singleGet name c script) where
  op := rfl
  content := rfl
  size := by
    have bound : offLimit = 2 ^ 63 := rfl
    simp only [singleGet, UInt64.toNat_ofNat']
    omega
  small := small
  byteOffset := rfl
  rounds := rfl
  forfeitedBytes := rfl
  deficit := rfl
  started := rfl

def shortCounts : List Reply := [⟨.grant (some 1), 0⟩, ⟨.grant (some 3), 0⟩, ⟨.grant none, 0⟩]

theorem shortCounts_obliging (name c : Bytes) : (singleGet name c shortCounts).Obliging := by
  intro r hr e
  simp only [singleGet, Os.start, shortCounts, List.mem_cons, List.not_mem_nil, or_false] at hr
  rcases hr with rfl | rfl | rfl <;> simp

/-- The header and the first `byteOffset` bytes of `c` have gone out after `base`, or nothing
yet when the service has not started. -/
structure Delivering (fd : Int) (base c : Bytes) (before ls : List Bytes) (j : Job) : Prop where
  serving : Serving c before ls j
  sent : j.os.sent fd =
    base ++ if j.req.started then formatOk c.length ++ c.take j.req.byteOffset.toNat else []
  fresh : j.req.started = false → before = []

section Delivery
variable {fd : Int} {sp : SliceParams} {base c : Bytes} {before ls : List Bytes} {j j' : Job}
  {res : SliceResult} {l : List Event}

theorem Delivering.step (h : Delivering fd base c before ls j)
    (round : GetRound fd sp c before ls j res j' l) :
    Delivering fd base c (before ++ (roundOf sp j.req.deficit ls).1) (roundOf sp j.req.deficit ls).2 j' where
  serving := round.serving
  fresh hs := by
    rw [round.req] at hs
    cases hs
  sent := by
    obtain ⟨hs, writes, puts⟩ := round.puts
    have started : j'.req.started = true := by
      rw [round.req]
      rfl
    have reached : c.take j'.req.byteOffset.toNat =
        before.flatten ++ (roundOf sp j.req.deficit ls).1.flatten := by
      rw [round.serving.offset, round.serving.whole, List.take_left, List.flatten_append]
    have here : c.take j.req.byteOffset.toNat = before.flatten := by
      rw [h.serving.offset, h.serving.whole, List.take_left]
    rw [puts.sends.sent_self, h.sent, started, if_pos rfl, reached, List.flatten_append, writes.bytes,
      headerOf, h.serving.size]
    cases hstarted : j.req.started with
    | true => simp [here]
    | false => simp [h.fresh hstarted]

theorem Delivering.boundary (h : Delivering fd base c before ls j) (hls : ls ≠ []) :
    IsBoundary newline c j.req.byteOffset.toNat := by
  rw [h.serving.offset]
  exact isBoundary_of_front h.serving.cut hls

theorem GetRun.unbounded {rounds : List Round} (run : GetRun fd sp c before ls j rounds)
    (hb : bounded sp.policy = false) : ∃ o, rounds = [o] := by
  cases run with
  | last => exact ⟨_, rfl⟩
  | more _ _ unfinished _ => cases hp : sp.policy <;> simp_all [roundOf, bounded]

theorem roundOf_rr_pos (r : Request) (h : Serving c before ls j) (hp : sp.policy = .rr)
    (hls : ls ≠ []) : 0 < (roundOf sp r.deficit ls).1.flatten.length := by
  have split := roundOf_append sp r.deficit ls
  cases hsent : (roundOf sp r.deficit ls).1 with
  | nil =>
    obtain ⟨line, rest, rfl⟩ := List.exists_cons_of_ne_nil hls
    simp only [roundOf, hp] at hsent
    exact absurd hsent (Packing.round_ne_nil _ _ _ _)
  | cons line sent =>
    rw [hsent] at split
    have pos : 0 < line.length := line_length_pos (c := c) (by rw [h.cut, ← split]; simp)
    simp only [List.flatten_cons, List.length_append]
    omega

theorem GetRun.offsets_rr {rounds : List Round} (run : GetRun fd sp c before ls j rounds)
    (h : Serving c before ls j) (hp : sp.policy = .rr) : List.IsChain (· < ·)
      (j.req.byteOffset.toNat :: rounds.dropLast.map fun o => o.state.req.byteOffset.toNat) := by
  induction run with
  | last => simp
  | @more before ls j o os _ round unfinished run ih =>
    have nonempty : os ≠ [] := by cases run <;> simp
    have hls : ls ≠ [] := by
      rintro rfl
      simp [roundOf, hp] at unfinished
    have sends := roundOf_rr_pos j.req h hp hls
    rw [List.dropLast_cons_of_ne_nil nonempty, List.map_cons, List.isChain_cons_cons]
    refine ⟨?_, ih round.serving⟩
    rw [round.serving.offset, h.offset, List.flatten_append, List.length_append]
    omega

/-- A GET runs to DONE and puts the header and then the file on the socket; after every
PREEMPTED round the socket has the header and exactly the bytes before `byteOffset`, which
is where a line begins. Without a quantum there is one round, and under rr every PREEMPTED
round moves on to a later line. -/
theorem serveRounds_get_delivers (fd : Int) (sp : SliceParams) {c : Bytes} {j : Job}
    (h : FreshGet c j) (hob : j.Obliging) (hq : bounded sp.policy = true → 0 < sp.quantum.toNat)
    {fuel : Nat} (enough : c.length < fuel) :
    ∃ front last, serveRounds fd sp fuel j = front ++ [last] ∧
      last.value = .ok .done ∧ last.state.os.sent fd = j.os.sent fd ++ formatOk c.length ++ c ∧
      (∀ o ∈ front, o.value = .ok .preempted ∧ IsBoundary newline c o.state.req.byteOffset.toNat ∧
        o.state.os.sent fd =
          j.os.sent fd ++ formatOk c.length ++ c.take o.state.req.byteOffset.toNat) ∧
      (bounded sp.policy = false → front = []) ∧
      (sp.policy = .rr →
        List.IsChain (· < ·) (0 :: front.map fun o => o.state.req.byteOffset.toNat)) := by
  have run := h.run hob fd hq enough
  have start : Delivering fd (j.os.sent fd) c [] (lines newline c) j :=
    ⟨h.serving, by simp [h.started], fun _ => rfl⟩
  obtain ⟨front, last, split, states, done, before, ls, j', final, round, finished⟩ :=
    run.ends (Delivering fd (j.os.sent fd) c)
      (fun before ls j' => Delivering fd (j.os.sent fd) c before ls j' ∧ j'.req.started = true)
      (fun _ _ _ _ _ hj round _ => ⟨hj.step round, by rw [round.req]; rfl⟩) (fun _ _ _ hj => hj.1) start
  refine ⟨front, last, split, done, ?_, ?_, ?_, ?_⟩
  · have ends := final.step round
    have started : last.state.req.started = true := by
      rw [round.req]
      rfl
    have reached := ends.serving.length
    rw [finished, List.flatten_nil, List.length_nil, Nat.add_zero] at reached
    rw [ends.sent, started, if_pos rfl, ends.serving.offset, ← reached, List.take_length,
      List.append_assoc]
  · rintro o ho
    obtain ⟨value, before', ls', ⟨hj, started⟩, unfinished⟩ := states o ho
    refine ⟨value, hj.boundary unfinished, ?_⟩
    rw [hj.sent, started, if_pos rfl, List.append_assoc]
  · intro hb
    obtain ⟨o, ho⟩ := run.unbounded hb
    have one := congrArg List.length (split.symm.trans ho)
    rw [List.length_append, List.length_singleton, List.length_singleton] at one
    exact List.length_eq_zero_iff.mp (by omega)
  · intro hp
    have chain := run.offsets_rr h.serving hp
    rw [split] at chain
    simpa [h.byteOffset] using chain

theorem serveRounds_get_delivers_single : ∃ front last,
    serveRounds 7 { policy := .drr, quantum := 2 } 6 (singleGet [102] [97, 98, 10, 99] shortCounts) =
        front ++ [last] ∧
      last.value = .ok .done ∧ last.state.os.sent 7 = formatOk 4 ++ [97, 98, 10, 99] := by
  obtain ⟨front, last, split, done, sent, -⟩ := serveRounds_get_delivers 7
    { policy := .drr, quantum := 2 } (singleGet_fresh [102] shortCounts (by decide))
    (shortCounts_obliging [102] [97, 98, 10, 99]) (by decide) (by decide : _ < 6)
  exact ⟨front, last, split, done, sent⟩

end Delivery

end LinkScheduling
