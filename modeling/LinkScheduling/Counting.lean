import LinkScheduling.Clock
import LinkScheduling.Comparison
import LinkScheduling.PutRuns

/-! The counter of a request is an `int`. Each slice increments it by one, so it holds the number
of rounds as long as there are fewer than `2^31` of them. The cap on the declared size bounds the
rounds of a PUT; a GET has no cap. -/

namespace Packing
variable {α : Type} (size : α → Nat)

theorem fit_reaches {cap : Nat} (p rest : List α) (fits : total size p ≤ cap) :
    ∃ q, (fit size cap (p ++ rest)).1 = p ++ q := by
  induction p generalizing cap with
  | nil => exact ⟨_, rfl⟩
  | cons x p ih =>
    rw [total_cons] at fits
    have smaller : total size p ≤ cap - size x := by omega
    obtain ⟨q, hq⟩ := ih smaller
    exact ⟨q, by rw [List.cons_append, fit, if_pos (by omega), hq, List.cons_append]⟩

theorem round_reaches {cap : Nat} {p : List α} (rest : List α) (fits : p.length ≤ 1 ∨ total size p ≤ cap) :
    ∃ q, (round size cap (p ++ rest)).1 = p ++ q := by
  cases p with
  | nil => exact ⟨_, rfl⟩
  | cons x p =>
    by_cases large : cap < size x
    · have alone : p = [] := by
        rcases fits with one | fits
        · exact List.length_eq_zero_iff.mp (by rw [List.length_cons] at one; omega)
        · rw [total_cons] at fits
          omega
      subst alone
      exact round_head size cap x rest
    · rw [List.cons_append, round, if_neg large]
      apply fit_reaches size (x :: p) rest
      rcases fits with one | fits
      · have alone : p = [] := List.length_eq_zero_iff.mp (by rw [List.length_cons] at one; omega)
        rw [alone, total_cons, total_nil]
        omega
      · exact fits

/-- Next-fit stays ahead: no way to cut a sequence into rounds takes fewer rounds than next-fit
takes for any end of it. -/
theorem nextFit_length_le {cap : Nat} {parts : List (List α)} (fits : ∀ p ∈ parts, p.length ≤ 1 ∨ total size p ≤ cap)
    {xs : List α} (ahead : xs <:+ parts.flatten) : (nextFit size cap xs).length ≤ parts.length := by
  induction parts generalizing xs with
  | nil =>
    rw [List.suffix_nil.mp ahead, nextFit_nil]
  | cons p parts ih =>
    cases xs with
    | nil =>
      rw [nextFit_nil]
      exact Nat.zero_le _
    | cons x xs =>
      have split := round_append size cap (x :: xs)
      rw [nextFit_cons, List.length_cons, List.length_cons]
      apply Nat.succ_le_succ
      apply ih fun q hq => fits q (List.mem_cons_of_mem p hq)
      obtain ⟨front, whole⟩ := ahead
      rw [List.flatten_cons, List.append_eq_append_iff] at whole
      rcases whole with ⟨q, hp, rest⟩ | ⟨q, -, rest⟩
      · -- the round goes at least to the end of `p`
        have short : q.length ≤ 1 ∨ total size q ≤ cap := by
          have bound := fits p List.mem_cons_self
          rw [hp, List.length_append, total_append] at bound
          omega
        obtain ⟨more, reached⟩ := round_reaches size parts.flatten short
        rw [rest] at split ⊢
        rw [reached, List.append_assoc, List.append_cancel_left_eq] at split
        exact ⟨more, split⟩
      · refine ⟨q ++ (round size cap (x :: xs)).1, ?_⟩
        rw [rest, List.append_assoc, split]

end Packing

namespace LinkScheduling
open Effect Lines

structure Countable (rounds : List Round) : Prop where
  few : rounds.length < 2 ^ 31
  counter : ∀ (k : Nat) o, rounds[k]? = some o → o.state.req.counter = (k : Int) + 1

section Rounds
variable {fd : Int} {sp : SliceParams} {c : Bytes} {j : Job} {rounds : List Round}

theorem callRounds_rounds {x : Slice SliceResult} (counts : ∀ j, Counts j (x j).state) {fuel k : Nat} {o : Round}
    (h : (callRounds x fuel j)[k]? = some o) : o.state.req.rounds = j.req.rounds + k + 1 := by
  induction fuel generalizing j k with
  | zero => cases h
  | succ fuel ih =>
    by_cases preempted : (x j).value = .ok .preempted
    · rw [callRounds_preempted fuel preempted] at h
      cases k with
      | zero =>
        cases h
        exact (counts j).rounds
      | succ k =>
        have later := ih h
        rw [(counts j).rounds] at later
        omega
    · rw [callRounds_over fuel preempted] at h
      cases k with
      | zero =>
        cases h
        exact (counts j).rounds
      | succ k => cases h

theorem countable_iff {fuel : Nat} (fresh : j.req.rounds = 0) :
    Countable (serveRounds fd sp fuel j) ↔ (serveRounds fd sp fuel j).length < 2 ^ 31 := by
  constructor
  · exact Countable.few
  · intro few
    refine ⟨few, fun k o ho => ?_⟩
    have count := callRounds_rounds (serveSlice_counts fd sp) ho
    rw [fresh, Nat.zero_add] at count
    have lt := (List.getElem?_eq_some_iff.mp ho).1
    exact_mod_cast (Request.counter_eq count).mpr (by omega)

theorem FreshPut.few (h : FreshPut j) (hq : bounded sp.policy = true → 0 < sp.quantum.toNat) {fuel : Nat}
    (enough : j.req.bytes.toNat < fuel) : (serveRounds fd sp fuel j).length ≤ j.req.bytes.toNat + 1 := by
  obtain ⟨front, last, stored, j', split, -, -, healthy, -⟩ := (h.run fd hq enough).ends (Healthy fd sp j)
    (fun _ _ _ _ _ _ _ _ _ _ healthy took unfinished => healthy.step took unfinished) (h.healthy fd sp)
  rw [Nat.zero_add] at healthy
  rw [split, List.length_append, List.length_singleton]
  apply Nat.succ_le_succ
  cases hb : bounded sp.policy with
  | false =>
    rw [healthy.rounds hb]
    exact Nat.zero_le _
  | true =>
    rcases healthy.unfinished with none | unfinished
    · rw [none]
      exact Nat.zero_le _
    · rw [healthy.quanta hb] at unfinished
      exact (Nat.le_mul_of_pos_right _ (hq hb)).trans unfinished.le

theorem FreshGet.length_rr {fuel : Nat} (h : FreshGet c j) (hob : j.Obliging) (hp : sp.policy = .rr)
    (hq : 0 < sp.quantum.toNat) (enough : c.length < fuel) :
    (serveRounds fd sp fuel j).length = (rrParts sp.quantum.toNat (lines newline c)).length := by
  have run := h.run hob fd (fun _ => hq) enough
  rw [← run.sentLines_rr h.serving hp, sentLines_length]

theorem rrParts_few_iff {q n : Nat} (ls : List Bytes) (pos : 1 < n) : (rrParts q ls).length < n ↔
    ∃ parts : List (List Bytes), parts.flatten = ls ∧ parts.length < n ∧
      ∀ p ∈ parts, p.length ≤ 1 ∨ p.flatten.length ≤ q := by
  constructor
  · intro few
    refine ⟨rrParts q ls, rrParts_flatten q ls, few, fun p hp => ?_⟩
    unfold rrParts at hp
    split at hp
    · rw [List.mem_singleton.mp hp]
      exact .inl (Nat.zero_le 1)
    · by_cases large : q < Packing.total List.length p
      · obtain ⟨line, rfl⟩ := Packing.nextFit_part_large List.length hp large
        exact .inl (Nat.le_refl 1)
      · rw [total_length] at large
        exact .inr (Nat.le_of_not_lt large)
  · rintro ⟨parts, whole, few, fits⟩
    unfold rrParts
    split
    · exact pos
    · have fits' : ∀ p ∈ parts, p.length ≤ 1 ∨ Packing.total List.length p ≤ q := by
        simpa only [total_length] using fits
      have least := Packing.nextFit_length_le List.length fits' (List.suffix_refl _)
      rw [whole] at least
      omega

end Rounds

/-- A request as `admit_connection` enqueues it: a GET of a file that stays as it is, or a PUT
whose declared size is within the cap. -/
inductive Admitted (c : Bytes) (j : Job) : Prop
  | get : FreshGet c j → j.Obliging → Admitted c j
  | put : FreshPut j → j.req.bytes ≤ kMaxPutBytes → Admitted c j

/-- A PUT, or a GET of a file that the quantum cuts into fewer than `2^31` parts. -/
def Coarse (sp : SliceParams) (c : Bytes) (op : Op) : Prop :=
  match op, sp.policy with
  | .put, _ => True
  | .get, .drr => c.length ≤ (2 ^ 31 - 1) * sp.quantum.toNat
  | .get, _ => ∃ parts : List (List Bytes), parts.flatten = lines newline c ∧ parts.length < 2 ^ 31 ∧
      ∀ p ∈ parts, p.length ≤ 1 ∨ p.flatten.length ≤ sp.quantum.toNat

/-- Under rr and drr, the counter of a request holds its rounds if and only if the request is a PUT
or the quantum is coarse enough for the file. -/
theorem serveRounds_countable_iff (fd : Int) (sp : SliceParams) (hp : bounded sp.policy = true)
    (hq : 0 < sp.quantum.toNat) {c : Bytes} {j : Job} (h : Admitted c j) {fuel : Nat}
    (enough : j.req.bytes.toNat < fuel) :
    Countable (serveRounds fd sp fuel j) ↔ Coarse sp c j.req.op := by
  rcases h with ⟨fresh, hob⟩ | ⟨fresh, small⟩
  · rw [fresh.size] at enough
    rw [countable_iff fresh.rounds, fresh.op]
    cases policy : sp.policy with
    | fcfs => simp [bounded, policy] at hp
    | sjf => simp [bounded, policy] at hp
    | rr =>
      rw [fresh.length_rr hob policy hq enough, rrParts_few_iff _ (by decide)]
      simp only [Coarse, policy]
    | drr =>
      have run := fresh.run hob fd (fun _ => hq) enough
      rw [run.length_drr policy hq fresh]
      simp only [Coarse, policy]
      rw [max_lt_iff, Nat.div_lt_iff_lt_mul hq]
      omega
  · have few := @FreshPut.few fd sp j fresh (fun _ => hq) fuel enough
    rw [countable_iff fresh.rounds, fresh.op]
    have cap : kMaxPutBytes.toNat = 2 ^ 30 := rfl
    rw [UInt64.le_iff_toNat_le] at small
    simp only [Coarse, iff_true]
    omega

theorem serveRounds_countable_iff_single :
    Countable (serveRounds 7 { policy := .drr, quantum := 2 } 6 (singleGet [102] [97, 98, 10, 99] shortCounts)) :=
  (serveRounds_countable_iff 7 { policy := .drr, quantum := 2 } (by decide) (by decide)
    (.get (singleGet_fresh [102] shortCounts (by decide)) (shortCounts_obliging [102] [97, 98, 10, 99]))
    (by decide : _ < 6)).mpr (by decide : 4 ≤ (2 ^ 31 - 1) * 2)

theorem serveRounds_uncountable :
    Admitted (List.replicate (2 ^ 31) newline) (singleGet [102] (List.replicate (2 ^ 31) newline) shortCounts) ∧
    ¬ Countable (serveRounds 7 { policy := .drr, quantum := 1 } (2 ^ 31 + 1)
      (singleGet [102] (List.replicate (2 ^ 31) newline) shortCounts)) := by
  have size : (List.replicate (2 ^ 31) newline).length = 2 ^ 31 := List.length_replicate
  generalize List.replicate (2 ^ 31) newline = c at size
  generalize enough : 2 ^ 31 + 1 = fuel
  have bound : offLimit = 2 ^ 63 := rfl
  have fresh := singleGet_fresh [102] (c := c) shortCounts (by omega)
  have hob := shortCounts_obliging [102] c
  refine ⟨.get fresh hob, fun counted => ?_⟩
  have run := @FreshGet.run c _ fresh hob 7 { policy := .drr, quantum := 1 } (fun _ => by decide) fuel (by omega)
  have length := run.length_drr rfl (by decide) fresh
  have few := counted.few
  have one : (1 : UInt64).toNat = 1 := rfl
  rw [length] at few
  simp only [one] at few
  omega

end LinkScheduling
