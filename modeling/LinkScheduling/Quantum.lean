import LinkScheduling.Rounds

/-! What the quantum does to the rounds of a GET. Under drr the deficit carries what a round
leaves over, so after `k` rounds the request stands at the last line boundary within `k`
quanta. Under rr what is left over is forfeited, and the rounds are those of next-fit. -/

namespace LinkScheduling
open Effect Lines

/-- Between two rounds of drr: the bytes sent and the deficit make up the rounds so far. -/
structure Carrying (sp : SliceParams) (c : Bytes) (before ls : List Bytes) (j : Job) : Prop where
  serving : Serving c before ls j
  balance : before.flatten.length + j.req.deficit.toNat = j.req.rounds * sp.quantum.toNat
  behind : ∀ line rest, ls = line :: rest → j.req.deficit.toNat < line.length
  forfeited : j.req.forfeitedBytes = 0

section Drr
variable {fd : Int} {sp : SliceParams} {c : Bytes} {before ls : List Bytes} {j j' : Job}
  {res : SliceResult} {l : List Event}

theorem longFirst_drr (hp : sp.policy = .drr) (ls : List Bytes) : longFirst sp ls = false := by
  cases ls with
  | nil => rfl
  | cons line rest => simp [longFirst, hp]

theorem Carrying.forfeits_nothing (h : Carrying sp c before ls j) (hp : sp.policy = .drr)
    (round : GetRound fd sp c before ls j res j' l) : j'.req.forfeitedBytes = 0 := by
  rw [round.req]
  simp [served, begun, hp, h.forfeited]

theorem Carrying.step (h : Carrying sp c before ls j) (hp : sp.policy = .drr)
    (round : GetRound fd sp c before ls j res j' l)
    (unfinished : (roundOf sp j.req.deficit ls).2 ≠ []) :
    Carrying sp c (before ++ (roundOf sp j.req.deficit ls).1) (roundOf sp j.req.deficit ls).2 j' := by
  have small := h.serving.small
  have total := h.serving.length
  obtain ⟨beyond, sum⟩ := drr_unfinished hp (by omega) unfinished
  have deficit : j'.req.deficit =
      allowance sp j.req.deficit - UInt64.ofNat (roundOf sp j.req.deficit ls).1.flatten.length := by
    rw [round.req]
    simp [served, begun, longFirst_drr hp, if_neg unfinished, hp]
  refine ⟨round.serving, ?_, ?_, h.forfeits_nothing hp round⟩
  · have balance := h.balance
    have count : j'.req.rounds = j.req.rounds + 1 := by rw [round.req]; rfl
    rw [List.flatten_append, List.length_append, deficit, count, Nat.succ_mul]
    omega
  · intro line rest hrest
    have capacity := allowance_drr hp j.req.deficit
    have bound : offLimit = 2 ^ 63 := rfl
    rw [deficit]
    simp only [roundOf, hp] at hrest sum ⊢
    have blocked := Packing.fit_blocked _ _ _ hrest
    rw [total_length] at blocked
    omega

theorem Carrying.greatest (h : Carrying sp c before ls j) (hls : ls ≠ []) :
    IsGreatest {b | IsBoundary newline c b ∧ b ≤ j.req.rounds * sp.quantum.toNat}
      j.req.byteOffset.toNat := by
  have balance := h.balance
  rw [h.serving.offset]
  refine ⟨⟨isBoundary_of_front h.serving.cut hls, by omega⟩, ?_⟩
  rintro b ⟨hb, within⟩
  obtain ⟨line, rest, rfl⟩ := List.exists_cons_of_ne_nil hls
  have behind := h.behind line rest rfl
  by_contra past
  have := hb.not_inside h.serving.cut (by omega)
  omega

theorem FreshGet.carrying {sp : SliceParams} (h : FreshGet c j) : Carrying sp c [] (lines newline c) j := by
  refine ⟨h.serving, by simp [h.deficit, h.rounds], ?_, h.forfeitedBytes⟩
  intro line rest hl
  rw [h.deficit]
  exact line_length_pos (c := c) (by simp [hl])

theorem GetRun.ends_drr {rounds : List Round} (run : GetRun fd sp c [] (lines newline c) j rounds)
    (hp : sp.policy = .drr) (h : FreshGet c j) : ∃ front last, rounds = front ++ [last] ∧
      (∀ o ∈ front, o.value = .ok .preempted ∧
        ∃ before' ls', (Carrying sp c before' ls' o.state ∧ ls' ≠ []) ∧ ls' ≠ []) ∧
      last.value = .ok .done ∧ ∃ before' ls' j',
        (Carrying sp c before' ls' j' ∧ (j'.req.rounds = 0 ∨ ls' ≠ [])) ∧
        GetRound fd sp c before' ls' j' .done last.state last.log ∧
          (roundOf sp j'.req.deficit ls').2 = [] :=
  run.ends (fun before ls j => Carrying sp c before ls j ∧ (j.req.rounds = 0 ∨ ls ≠ []))
    (fun before ls j => Carrying sp c before ls j ∧ ls ≠ [])
    (fun _ _ _ _ _ hj round unfinished => ⟨hj.1.step hp round unfinished, unfinished⟩)
    (fun _ _ _ hj => ⟨hj.1, .inr hj.2⟩) ⟨h.carrying, .inl h.rounds⟩

theorem GetRun.length_drr {rounds : List Round} (run : GetRun fd sp c [] (lines newline c) j rounds)
    (hp : sp.policy = .drr) (hq : 0 < sp.quantum.toNat) (h : FreshGet c j) :
    rounds.length = max 1 ((c.length + sp.quantum.toNat - 1) / sp.quantum.toNat) := by
  obtain ⟨front, last, split, -, -, before, ls, j', ⟨final, progress⟩, round, finished⟩ := run.ends_drr hp h
  have rounds : j'.req.rounds = front.length := by
    have counted := run.count front.length last (by rw [split]; simp)
    rw [h.rounds, Nat.zero_add, round.req] at counted
    exact Nat.succ.inj counted
  have total := final.serving.length
  have balance := final.balance
  have capacity := allowance_drr hp j'.req.deficit
  simp only [roundOf, hp, Packing.fit_eq_all_iff, total_length] at finished
  rw [split, List.length_append, List.length_singleton]
  rw [rounds] at balance
  refine max_one_ceilDiv hq (by rw [Nat.succ_mul]; omega) ?_
  rcases progress with fresh | unfinished
  · exact .inl (by omega)
  · obtain ⟨line, rest, rfl⟩ := List.exists_cons_of_ne_nil unfinished
    have behind := final.behind line rest rfl
    simp only [List.flatten_cons, List.length_append] at total
    exact .inr (by omega)

/-- The closed form of drr: after its `k`-th PREEMPTED round a GET has sent the lines that end
within `k` quanta, and the deficit is what is missing to `k` quanta. So the number of rounds
depends on the size of the file alone. -/
theorem serveRounds_drr_closedForm (fd : Int) (sp : SliceParams) (hp : sp.policy = .drr)
    (hq : 0 < sp.quantum.toNat) {c : Bytes} {j : Job} (h : FreshGet c j) (hob : j.Obliging)
    {fuel : Nat} (enough : c.length < fuel) :
    ∃ front last, serveRounds fd sp fuel j = front ++ [last] ∧
      (∀ k o, front[k]? = some o → o.value = .ok .preempted ∧
        IsGreatest {b | IsBoundary newline c b ∧ b ≤ (k + 1) * sp.quantum.toNat}
          o.state.req.byteOffset.toNat ∧
        o.state.req.deficit.toNat = (k + 1) * sp.quantum.toNat - o.state.req.byteOffset.toNat ∧
        (∃ line rest, lines newline (c.drop o.state.req.byteOffset.toNat) = line :: rest ∧
          o.state.req.deficit.toNat < line.length) ∧
        o.state.req.forfeitedBytes = 0) ∧
      last.value = .ok .done ∧ last.state.req.deficit = 0 ∧ last.state.req.forfeitedBytes = 0 ∧
      (front ++ [last]).length = max 1 ((c.length + sp.quantum.toNat - 1) / sp.quantum.toNat) ∧
      roundsA14 (front ++ [last]) = [] := by
  have run := h.run hob fd (fun _ => hq) enough
  obtain ⟨front, last, split, states, done, before, ls, j', ⟨final, -⟩, round, finished⟩ := run.ends_drr hp h
  have count : ∀ k o, (front ++ [last])[k]? = some o → o.state.req.rounds = k + 1 := by
    intro k o ho
    rw [run.count k o (split ▸ ho), h.rounds, Nat.zero_add]
  refine ⟨front, last, split, ?_, done, ?_, final.forfeits_nothing hp round, ?_, ?_⟩
  · intro k o ho
    obtain ⟨value, before', ls', ⟨hj, -⟩, unfinished⟩ := states o (List.mem_of_getElem? ho)
    have counted := count k o (by
      rw [List.getElem?_append_left (List.getElem?_eq_some_iff.mp ho).1]
      exact ho)
    have greatest := hj.greatest unfinished
    have balance := hj.balance
    have offset := hj.serving.offset
    rw [counted] at greatest balance
    obtain ⟨line, rest, rfl⟩ := List.exists_cons_of_ne_nil unfinished
    refine ⟨value, greatest, by omega, ⟨line, rest, ?_, hj.behind line rest rfl⟩, hj.forfeited⟩
    rw [hj.serving.drop]
    exact lines_suffix hj.serving.cut
  · rw [round.req]
    simp [served, longFirst_drr hp, finished]
  · rw [← split]
    exact run.length_drr hp hq h
  · rw [roundsA14, List.flatten_eq_nil_iff]
    intro as has
    obtain ⟨o, ho, rfl⟩ := List.mem_map.mp has
    obtain ⟨_, _, _, _, round⟩ := run.round_of_mem o (split ▸ ho)
    obtain ⟨_, -, puts⟩ := round.puts
    rw [puts.shows.a14, a14Lines, longFirst_drr hp]
    rfl

theorem serveRounds_drr_closedForm_single : ∃ front last,
    serveRounds 7 { policy := .drr, quantum := 2 } 6 (singleGet [102] [97, 98, 10, 99] shortCounts) =
        front ++ [last] ∧
      last.value = .ok .done ∧ last.state.req.deficit = 0 ∧ (front ++ [last]).length = 2 := by
  obtain ⟨front, last, split, -, done, deficit, -, length, -⟩ :=
    serveRounds_drr_closedForm 7 { policy := .drr, quantum := 2 } rfl (by decide)
      (singleGet_fresh [102] shortCounts (by decide)) (shortCounts_obliging [102] [97, 98, 10, 99])
      (by decide : _ < 6)
  exact ⟨front, last, split, done, deficit, length⟩

end Drr

/-- The lines of each round under rr: next-fit, where an empty file takes one round. -/
def rrParts (quantum : Nat) (ls : List Bytes) : List (List Bytes) :=
  if ls = [] then [[]] else Packing.nextFit List.length quantum ls

def withHeader (header : Bytes) : List Bytes → List Bytes
  | [] => []
  | body :: rest => (header ++ body) :: rest

section Rr
variable {fd : Int} {sp : SliceParams} {c : Bytes} {before ls : List Bytes} {j j' : Job}
  {res : SliceResult} {l : List Event}

theorem roundOf_rr (hp : sp.policy = .rr) (deficit : UInt64) (ls : List Bytes) :
    roundOf sp deficit ls = Packing.round List.length sp.quantum.toNat ls := by
  simp only [roundOf, hp]

theorem rrParts_last {q : Nat} {ls : List Bytes} (h : (Packing.round List.length q ls).2 = []) :
    rrParts q ls = [(Packing.round List.length q ls).1] := by
  cases ls with
  | nil => simp [rrParts]
  | cons line rest => simp [rrParts, Packing.nextFit_cons, h]

theorem rrParts_more {q : Nat} {ls : List Bytes} (h : (Packing.round List.length q ls).2 ≠ []) :
    rrParts q ls =
      (Packing.round List.length q ls).1 :: rrParts q (Packing.round List.length q ls).2 := by
  cases ls with
  | nil => simp at h
  | cons line rest => rw [rrParts, if_neg (by simp), Packing.nextFit_cons, rrParts, if_neg h]

theorem rrParts_flatten (q : Nat) (ls : List Bytes) : (rrParts q ls).flatten = ls := by
  unfold rrParts
  split
  · rename_i h
    simp [h]
  · exact Packing.nextFit_flatten _ _ _

theorem rrParts_eq_cons (q : Nat) (ls : List Bytes) : ∃ p ps, rrParts q ls = p :: ps := by
  unfold rrParts
  split
  · exact ⟨[], [], rfl⟩
  · rename_i h
    exact List.exists_cons_of_ne_nil (by rwa [ne_eq, Packing.nextFit_eq_nil])

theorem waste_rrParts_le (q : Nat) (ls : List Bytes) :
    Packing.waste List.length q (rrParts q ls) ≤ ls.flatten.length := by
  unfold rrParts
  split
  · exact Nat.zero_le _
  · have := Packing.waste_nextFit_le List.length q ls
    rw [total_length] at this
    omega

def longLines (sp : SliceParams) (r : Request) (ls : List Bytes) :
    List (Nat × Bytes × UInt64 × UInt64) :=
  (ls.filter fun line => sp.quantum.toNat < line.length).map fun line =>
    (r.id, r.filename, UInt64.ofNat line.length, sp.quantum)

theorem a14Lines_round (hp : sp.policy = .rr) (r : Request) (ls : List Bytes) :
    a14Lines sp r (Packing.round List.length sp.quantum.toNat ls).1 =
      longLines sp r (Packing.round List.length sp.quantum.toNat ls).1 := by
  cases ls with
  | nil => rfl
  | cons line rest =>
    rw [Packing.round]
    split
    · rename_i hlong
      simp [a14Lines, longLines, longFirst, hp, hlong]
    · have short : ∀ x ∈ (Packing.fit List.length sp.quantum.toNat (line :: rest)).1,
          ¬ sp.quantum.toNat < x.length := by
        intro x hx
        have fits := Packing.total_fit_le List.length sp.quantum.toNat (line :: rest)
        have := List.single_le_sum (fun _ _ => Nat.zero_le _) _ (List.mem_map_of_mem (f := List.length) hx)
        simp only [Packing.total] at fits
        omega
      have none : longFirst sp (Packing.fit List.length sp.quantum.toNat (line :: rest)).1 = false := by
        cases hfit : (Packing.fit List.length sp.quantum.toNat (line :: rest)).1 with
        | nil => rfl
        | cons x xs =>
          have := short x (by rw [hfit]; exact List.mem_cons_self)
          simp [longFirst, this]
      have filtered : ((Packing.fit List.length sp.quantum.toNat (line :: rest)).1.filter
          fun x => sp.quantum.toNat < x.length) = [] := by
        simpa using fun x hx => Nat.le_of_not_lt (short x hx)
      rw [a14Lines, none, longLines, filtered]
      rfl

theorem GetRun.bytes_rr {rounds : List Round} (run : GetRun fd sp c before ls j rounds)
    (hp : sp.policy = .rr) : roundBytes fd j rounds =
      withHeader (headerOf j.req).flatten ((rrParts sp.quantum.toNat ls).map List.flatten) := by
  induction run with
  | @last before ls j o _ round finished =>
    rw [roundOf_rr hp] at finished
    obtain ⟨hs, writes, puts⟩ := round.puts
    rw [rrParts_last finished, roundBytes, roundBytes, puts.sends.sent_self, List.drop_left,
      List.flatten_append, writes.bytes, roundOf_rr hp]
    rfl
  | @more before ls j o os _ round unfinished run ih =>
    obtain ⟨hs, writes, puts⟩ := round.puts
    have started : headerOf o.state.req = [] := by
      rw [round.req]
      rfl
    obtain ⟨p, ps, hparts⟩ := rrParts_eq_cons sp.quantum.toNat (roundOf sp j.req.deficit ls).2
    rw [started, hparts] at ih
    rw [roundOf_rr hp] at unfinished hparts
    rw [rrParts_more unfinished, hparts, roundBytes, ih, puts.sends.sent_self, List.drop_left,
      List.flatten_append, writes.bytes, roundOf_rr hp]
    rfl

theorem GetRun.a14_rr {rounds : List Round} (run : GetRun fd sp c before ls j rounds)
    (hp : sp.policy = .rr) : roundsA14 rounds = longLines sp j.req ls := by
  induction run with
  | @last before ls j o _ round finished =>
    obtain ⟨hs, -, puts⟩ := round.puts
    have split := roundOf_append sp j.req.deficit ls
    rw [finished, List.append_nil] at split
    rw [roundsA14, List.map_singleton, List.flatten_singleton, puts.shows.a14, roundOf_rr hp,
      a14Lines_round hp, ← roundOf_rr hp j.req.deficit, split]
  | @more before ls j o os _ round unfinished run ih =>
    obtain ⟨hs, -, puts⟩ := round.puts
    have split := roundOf_append sp j.req.deficit ls
    have same : longLines sp o.state.req (roundOf sp j.req.deficit ls).2 =
        longLines sp j.req (roundOf sp j.req.deficit ls).2 := by
      rw [round.req]
      rfl
    have here := puts.shows.a14
    rw [roundOf_rr hp, a14Lines_round hp, ← roundOf_rr hp j.req.deficit] at here
    rw [roundsA14, List.map_cons, List.flatten_cons, here, ← roundsA14, ih, same]
    conv_rhs => rw [← split]
    simp only [longLines, List.filter_append, List.map_append]

theorem roundBytes_length (fd : Int) (j : Job) (rounds : List Round) :
    (roundBytes fd j rounds).length = rounds.length := by
  induction rounds generalizing j with
  | nil => rfl
  | cons o os ih => rw [roundBytes, List.length_cons, List.length_cons, ih]

theorem longFirst_round (hp : sp.policy = .rr) (ls : List Bytes) :
    longFirst sp (Packing.round List.length sp.quantum.toNat ls).1 = true ↔
      sp.quantum.toNat <
        Packing.total List.length (Packing.round List.length sp.quantum.toNat ls).1 := by
  cases ls with
  | nil => simp [longFirst]
  | cons line rest =>
    rw [Packing.round]
    split
    · rename_i hlong
      simp [longFirst, hp, hlong]
    · have fits := Packing.total_fit_le List.length sp.quantum.toNat (line :: rest)
      cases hfit : (Packing.fit List.length sp.quantum.toNat (line :: rest)).1 with
      | nil => simp [longFirst]
      | cons x xs =>
        rw [hfit, Packing.total_cons] at fits
        simp only [longFirst, hp, decide_true, Bool.true_and, decide_eq_true_eq, Packing.total_cons]
        omega

/-- A PREEMPTED round forfeits what its lines leave of the quantum, and an A14 line leaves
nothing. -/
theorem forfeits_rr (hp : sp.policy = .rr) (round : GetRound fd sp c before ls j res j' l)
    (unfinished : (roundOf sp j.req.deficit ls).2 ≠ []) :
    j'.req.forfeitedBytes = j.req.forfeitedBytes + UInt64.ofNat
      (sp.quantum.toNat -
        Packing.total List.length (Packing.round List.length sp.quantum.toNat ls).1) := by
  rw [round.req]
  simp only [served, begun, hp, roundOf_rr hp, true_and]
  rw [roundOf_rr hp] at unfinished
  cases hlong : longFirst sp (Packing.round List.length sp.quantum.toNat ls).1 with
  | true =>
    have beyond := (longFirst_round hp ls).mp hlong
    rw [if_neg (by simp), Nat.sub_eq_zero_of_le (by omega)]
    simp
  | false =>
    have fits := mt (longFirst_round hp ls).mpr (by simp [hlong])
    rw [if_pos ⟨unfinished, rfl⟩]
    rw [total_length] at fits ⊢
    congr 1
    have top := sp.quantum.toNat_lt
    apply UInt64.toNat_inj.mp
    rw [UInt64.toNat_sub_of_le _ _ (UInt64.le_iff_toNat_le.mpr (by rw [UInt64.toNat_ofNat']; omega)),
      UInt64.toNat_ofNat', UInt64.toNat_ofNat']
    omega

theorem GetRun.forfeited_rr {rounds : List Round} (run : GetRun fd sp c before ls j rounds)
    (hp : sp.policy = .rr) {front : List Round} {last : Round} (split : rounds = front ++ [last]) :
    last.state.req.forfeitedBytes = j.req.forfeitedBytes +
      UInt64.ofNat (Packing.waste List.length sp.quantum.toNat (rrParts sp.quantum.toNat ls)) := by
  induction run generalizing front with
  | @last before ls j o _ round finished =>
    have one : front = [] ∧ o = last := by
      cases front with
      | nil => exact ⟨rfl, by simpa using split⟩
      | cons => simp at split
    rw [← one.2, round.req, served, finished]
    rw [roundOf_rr hp] at finished
    rw [rrParts_last finished]
    simp [begun]
  | @more before ls j o os _ round unfinished run ih =>
    cases front with
    | nil =>
      rw [List.nil_append] at split
      rw [(List.cons.inj split).2] at run
      cases run
    | cons first front =>
      obtain ⟨rfl, split'⟩ := List.cons.inj split
      rw [ih split', forfeits_rr hp round unfinished]
      obtain ⟨p, ps, hparts⟩ := rrParts_eq_cons sp.quantum.toNat (roundOf sp j.req.deficit ls).2
      rw [roundOf_rr hp] at unfinished hparts ⊢
      rw [rrParts_more unfinished, hparts, Packing.waste_cons, UInt64.ofNat_add, UInt64.add_assoc]

/-- Under rr the rounds of a GET are those of next-fit over the lines of the file. Each line
longer than the quantum is logged once, in order, and the rounds forfeit what next-fit leaves
unused, the last round and the long lines aside. -/
theorem serveRounds_rr_nextFit (fd : Int) (sp : SliceParams) (hp : sp.policy = .rr)
    (hq : 0 < sp.quantum.toNat) {c : Bytes} {j : Job} (h : FreshGet c j) (hob : j.Obliging)
    {fuel : Nat} (enough : c.length < fuel) :
    ∃ front last, serveRounds fd sp fuel j = front ++ [last] ∧
      (∀ o ∈ front, o.value = .ok .preempted) ∧ last.value = .ok .done ∧
      roundBytes fd j (front ++ [last]) = withHeader (formatOk c.length)
        ((rrParts sp.quantum.toNat (lines newline c)).map List.flatten) ∧
      roundsA14 (front ++ [last]) = longLines sp j.req (lines newline c) ∧
      last.state.req.rounds = (rrParts sp.quantum.toNat (lines newline c)).length ∧
      last.state.req.forfeitedBytes.toNat =
        Packing.waste List.length sp.quantum.toNat (rrParts sp.quantum.toNat (lines newline c)) ∧
      (c ≠ [] → ∀ p ∈ rrParts sp.quantum.toNat (lines newline c),
        p ≠ [] ∧ sp.quantum.toNat - Packing.total List.length p < sp.quantum.toNat) := by
  have run := h.run hob fd (fun _ => hq) enough
  have header : (headerOf j.req).flatten = formatOk c.length := by
    simp [headerOf, h.started, h.size]
  obtain ⟨front, last, split, states, done, -⟩ :=
    run.ends (fun _ _ _ => True) (fun _ _ _ => True) (fun _ _ _ _ _ _ _ _ => trivial)
      (fun _ _ _ _ => trivial) trivial
  have bytes := run.bytes_rr hp
  rw [header, split] at bytes
  refine ⟨front, last, split, fun o ho => (states o ho).1, done, bytes, ?_, ?_, ?_, ?_⟩
  · rw [← split]
    exact run.a14_rr hp
  · have counted := run.count front.length last (by rw [split]; simp)
    have parts := congrArg List.length bytes
    rw [roundBytes_length] at parts
    obtain ⟨p, ps, hparts⟩ := rrParts_eq_cons sp.quantum.toNat (lines newline c)
    rw [hparts, List.length_append, List.length_singleton, List.map_cons, withHeader,
      List.length_cons, List.length_map] at parts
    rw [counted, h.rounds, hparts, List.length_cons]
    omega
  · have wasted := waste_rrParts_le sp.quantum.toNat (lines newline c)
    have small := h.small
    have bound : offLimit = 2 ^ 63 := rfl
    rw [lines_flatten] at wasted
    rw [run.forfeited_rr hp split, h.forfeitedBytes, UInt64.zero_add, UInt64.toNat_ofNat']
    omega
  · intro hc p hpart
    rw [rrParts, if_neg (by rwa [lines_eq_nil])] at hpart
    have hne := Packing.nextFit_part_ne_nil _ hpart
    obtain ⟨line, rest, rfl⟩ := List.exists_cons_of_ne_nil hne
    have member : line ∈ lines newline c := by
      rw [← Packing.nextFit_flatten List.length sp.quantum.toNat (lines newline c)]
      exact List.mem_flatten.mpr ⟨_, hpart, List.mem_cons_self⟩
    have pos := line_length_pos member
    exact ⟨hne, by rw [Packing.total_cons]; omega⟩

theorem serveRounds_rr_nextFit_single : ∃ front last,
    serveRounds 7 { policy := .rr, quantum := 2 } 6 (singleGet [102] [97, 98, 10, 99] shortCounts) =
        front ++ [last] ∧
      last.value = .ok .done ∧ roundsA14 (front ++ [last]) = [(1, [102], 3, 2)] := by
  obtain ⟨front, last, split, -, done, -, fires, -⟩ :=
    serveRounds_rr_nextFit 7 { policy := .rr, quantum := 2 } rfl (by decide)
      (singleGet_fresh [102] shortCounts (by decide)) (shortCounts_obliging [102] [97, 98, 10, 99])
      (by decide : _ < 6)
  exact ⟨front, last, split, done, fires⟩

end Rr

end LinkScheduling
