import LinkScheduling.Quantum
import LinkScheduling.Trickle

/-! The 64-bit accounts of the slices against accounts over the natural numbers. The latter are
kept with checked operations, which fail where a machine integer would wrap. They never fail,
and the requests that the workers keep agree with them round for round. -/

namespace LinkScheduling
open Effect Lines

def checkedAdd (a b : Nat) : Option Nat := if a + b < 2 ^ 64 then some (a + b) else none

def checkedSub (a b : Nat) : Option Nat := if b ≤ a then some (a - b) else none

theorem checkedAdd_eq {a b : Nat} (h : a + b < 2 ^ 64) : checkedAdd a b = some (a + b) := if_pos h

theorem checkedSub_eq {a b : Nat} (h : b ≤ a) : checkedSub a b = some (a - b) := if_pos h

structure Ledger where
  byteOffset : Nat
  forfeitedBytes : Nat
  deficit : Nat
  deriving DecidableEq

def ledgerOf (r : Request) : Ledger := ⟨r.byteOffset.toNat, r.forfeitedBytes.toNat, r.deficit.toNat⟩

/-- The allowance of a round, saturated at the largest 64-bit number. -/
def checkedAllowance (sp : SliceParams) (deficit : Nat) : Option Nat :=
  if bounded sp.policy then do
    let carried := if sp.policy = .drr then deficit else 0
    let room ← checkedSub (2 ^ 64 - 1) sp.quantum.toNat
    if room < carried then some (2 ^ 64 - 1) else checkedAdd carried sp.quantum.toNat
  else some (2 ^ 64 - 1)

/-- The loop of a round over the lengths of the lines left, and the lengths that it leaves. -/
def checkedLines (sp : SliceParams) (bytes : Nat) :
    List Nat → Nat → Nat → Ledger → Option (SliceResult × Ledger × List Nat)
  | [], _, _, a => some (.done, { a with deficit := 0 }, [])
  | len :: rest, left, sentThisRound, a =>
    if sp.policy = .rr ∧ sentThisRound = 0 ∧ sp.quantum.toNat < len then do
      let offset ← checkedAdd a.byteOffset len
      some (if bytes ≤ offset then .done else .preempted, { a with byteOffset := offset }, rest)
    else if bounded sp.policy ∧ left < len then
      if sp.policy = .rr then do
        let forfeited ← checkedAdd a.forfeitedBytes left
        some (.preempted, { a with forfeitedBytes := forfeited }, len :: rest)
      else some (.preempted, { a with deficit := left }, len :: rest)
    else do
      let offset ← checkedAdd a.byteOffset len
      let sentThisRound ← checkedAdd sentThisRound len
      let left ← if bounded sp.policy then checkedSub left len else some left
      checkedLines sp bytes rest left sentThisRound { a with byteOffset := offset }

def checkedRound (sp : SliceParams) (bytes : Nat) (lens : List Nat) (a : Ledger) :
    Option (SliceResult × Ledger × List Nat) := do
  let left ← checkedAllowance sp a.deficit
  checkedLines sp bytes lens left 0 a

def checkedRounds (sp : SliceParams) (bytes : Nat) :
    Nat → List Nat → Ledger → Option (List (SliceResult × Ledger))
  | 0, _, _ => some []
  | fuel + 1, lens, a => do
    let (res, a', rest) ← checkedRound sp bytes lens a
    if res = .preempted then do
      let later ← checkedRounds sp bytes fuel rest a'
      some ((res, a') :: later)
    else some [(res, a')]

theorem checkedAllowance_eq {sp : SliceParams} (deficit : UInt64) :
    checkedAllowance sp deficit.toNat = some (allowance sp deficit).toNat := by
  have top := sp.quantum.toNat_lt
  have room := checkedSub_eq (by omega : sp.quantum.toNat ≤ 2 ^ 64 - 1)
  have below := deficit.toNat_lt
  unfold checkedAllowance
  cases hp : sp.policy with
  | fcfs => simp [allowance, bounded, hp, kUnbounded]
  | sjf => simp [allowance, bounded, hp, kUnbounded]
  | rr =>
    have sum := checkedAdd_eq (by omega : 0 + sp.quantum.toNat < 2 ^ 64)
    rw [allowance_rr hp]
    simp only [bounded, if_true, room, sum, Option.bind_eq_bind, Option.bind_some, reduceCtorEq,
      if_false, Nat.not_lt_zero, Nat.zero_add]
  | drr =>
    have capacity := allowance_drr hp deficit
    simp only [bounded, if_true, room, Option.bind_eq_bind, Option.bind_some]
    split
    · simp only [Option.some.injEq]
      omega
    · rw [checkedAdd_eq (by omega)]
      simp only [Option.some.injEq]
      omega

section Lines
variable {sp : SliceParams} {bytes : Nat}

theorem checkedLines_unbounded (hb : bounded sp.policy = false) (ls : List Bytes) (left sent : Nat) (a : Ledger)
    (offset : a.byteOffset + ls.flatten.length < 2 ^ 64) (total : sent + ls.flatten.length < 2 ^ 64) :
    checkedLines sp bytes (ls.map List.length) left sent a =
      some (.done, { a with byteOffset := a.byteOffset + ls.flatten.length, deficit := 0 }, []) := by
  have free : ¬ sp.policy = .rr := by
    intro hp
    simp [bounded, hp] at hb
  induction ls generalizing sent a with
  | nil => simp [checkedLines]
  | cons line rest ih =>
    rw [List.flatten_cons, List.length_append] at offset total
    rw [List.map_cons, checkedLines, if_neg (by simp [free]), if_neg (by simp [hb]),
      checkedAdd_eq (by omega), checkedAdd_eq (by omega)]
    simp only [Option.bind_eq_bind, Option.bind_some, hb, Bool.false_eq_true, if_false]
    rw [ih _ _ (by simp only; omega) (by omega)]
    simp only [List.flatten_cons, List.length_append, Nat.add_assoc]

theorem checkedLines_bounded (hb : bounded sp.policy = true) {ls : List Bytes} (nonempty : ∀ line ∈ ls, line ≠ [])
    {left sent : Nat} {a : Ledger}
    (short : sp.policy = .rr → sent = 0 → ∀ line rest, ls = line :: rest → line.length ≤ sp.quantum.toNat)
    (offset : a.byteOffset + ls.flatten.length < 2 ^ 64) (total : sent + ls.flatten.length < 2 ^ 64)
    (forfeited : sp.policy = .rr → (Packing.fit List.length left ls).2 ≠ [] →
      a.forfeitedBytes + (left - (Packing.fit List.length left ls).1.flatten.length) < 2 ^ 64) :
    checkedLines sp bytes (ls.map List.length) left sent a =
      some (if (Packing.fit List.length left ls).2 = [] then .done else .preempted,
        { byteOffset := a.byteOffset + (Packing.fit List.length left ls).1.flatten.length
          forfeitedBytes :=
            if sp.policy = .rr ∧ (Packing.fit List.length left ls).2 ≠ [] then
              a.forfeitedBytes + (left - (Packing.fit List.length left ls).1.flatten.length)
            else a.forfeitedBytes
          deficit :=
            if (Packing.fit List.length left ls).2 = [] then 0
            else if sp.policy = .rr then a.deficit
            else left - (Packing.fit List.length left ls).1.flatten.length },
        (Packing.fit List.length left ls).2.map List.length) := by
  induction ls generalizing left sent a with
  | nil => simp [checkedLines]
  | cons line rest ih =>
    have pos := List.length_pos_iff.mpr (nonempty line List.mem_cons_self)
    rw [List.flatten_cons, List.length_append] at offset total
    rw [List.map_cons, checkedLines, if_neg (fun h => Nat.not_lt.mpr (short h.1 h.2.1 _ _ rfl) h.2.2)]
    by_cases fits : line.length ≤ left
    · rw [Packing.fit, if_pos fits] at forfeited ⊢
      rw [if_neg (fun h => Nat.not_lt.mpr fits h.2), checkedAdd_eq (by omega), checkedAdd_eq (by omega)]
      simp only [Option.bind_eq_bind, Option.bind_some, hb, if_true, checkedSub_eq fits,
        List.flatten_cons, List.length_append] at forfeited ⊢
      rw [ih (fun x hx => nonempty x (List.mem_cons_of_mem _ hx)) (fun _ hz => by omega)
        (by simp only; omega) (by omega)
        (fun hp hne => by have := forfeited hp hne; simp only; omega)]
      simp only [Nat.add_assoc, Nat.sub_sub]
    · rw [Packing.fit, if_neg fits] at forfeited ⊢
      rw [if_pos ⟨hb, Nat.lt_of_not_le fits⟩]
      simp only [List.flatten_nil, List.length_nil, Nat.sub_zero, Nat.add_zero, reduceCtorEq, if_false,
        ne_eq, not_false_eq_true, and_true, List.map_cons] at forfeited ⊢
      by_cases hp : sp.policy = .rr
      · rw [if_pos hp, if_pos hp, if_pos hp, checkedAdd_eq (forfeited hp trivial)]
        rfl
      · rw [if_neg hp, if_neg hp, if_neg hp]

end Lines

def headSize : List Bytes → Nat
  | [] => 0
  | line :: _ => line.length

/-- The accounts of a GET that has sent `before` and still has `ls` to send. What was forfeited
is charged to the lines that started a round, the first of them aside. -/
structure Booked (c : Bytes) (before ls : List Bytes) (r : Request) : Prop where
  cut : lines newline c = before ++ ls
  small : c.length < 2 ^ 63
  offset : r.byteOffset.toNat = before.flatten.length
  forfeited : r.forfeitedBytes.toNat ≤ before.flatten.length + headSize ls - 1

section Booked
variable {sp : SliceParams} {c : Bytes} {before ls : List Bytes} {r : Request}

theorem Booked.length (h : Booked c before ls r) :
    c.length = before.flatten.length + ls.flatten.length := by
  rw [← List.length_append, ← List.flatten_append, ← h.cut, lines_flatten]

theorem Booked.nonempty (h : Booked c before ls r) (line : Bytes) (hline : line ∈ ls) : line ≠ [] :=
  lines_ne_nil (c := c) (by rw [h.cut]; exact List.mem_append_right _ hline)

theorem headSize_le (ls : List Bytes) : headSize ls ≤ ls.flatten.length := by
  cases ls with
  | nil => exact Nat.le_refl 0
  | cons line rest =>
    rw [headSize, List.flatten_cons, List.length_append]
    exact Nat.le_add_right _ _

theorem headSize_round (sp : SliceParams) (deficit : UInt64) (ls : List Bytes) :
    headSize ls ≤ (roundOf sp deficit ls).1.flatten.length + headSize (roundOf sp deficit ls).2 := by
  have split := roundOf_append sp deficit ls
  cases hsent : (roundOf sp deficit ls).1 with
  | nil =>
    rw [hsent, List.nil_append] at split
    rw [split]
    exact Nat.le_add_left _ _
  | cons line sent =>
    rw [hsent] at split
    rw [← split, List.cons_append, headSize, List.flatten_cons, List.length_append]
    omega

theorem unused_lt (hp : sp.policy = .rr) {deficit : UInt64} {ls : List Bytes}
    (unfinished : (roundOf sp deficit ls).2 ≠ []) :
    sp.quantum.toNat < (roundOf sp deficit ls).1.flatten.length + headSize (roundOf sp deficit ls).2 := by
  rw [roundOf_rr hp] at unfinished ⊢
  obtain ⟨line, rest, hrest⟩ := List.exists_cons_of_ne_nil unfinished
  have blocked := Packing.total_round_blocked List.length _ _ hrest
  rwa [total_length, ← headSize.eq_2 line rest, ← hrest] at blocked

theorem sent_le (hp : sp.policy = .rr) {deficit : UInt64} {ls : List Bytes}
    (short : longFirst sp (roundOf sp deficit ls).1 = false) :
    (roundOf sp deficit ls).1.flatten.length ≤ sp.quantum.toNat := by
  rw [roundOf_rr hp] at short ⊢
  rw [← Bool.not_eq_true, longFirst_round hp, total_length] at short
  omega

theorem headSize_sent (hp : sp.policy = .rr) (deficit : UInt64) (ls : List Bytes) :
    headSize ls ≤ (roundOf sp deficit ls).1.flatten.length := by
  rw [roundOf_rr hp]
  cases ls with
  | nil => exact Nat.le_refl 0
  | cons line rest =>
    obtain ⟨p, hp⟩ := Packing.round_head List.length sp.quantum.toNat line rest
    rw [hp, headSize, List.flatten_cons, List.length_append]
    exact Nat.le_add_right _ _

theorem served_offset {sent rest : List Bytes} (h : r.byteOffset.toNat + sent.flatten.length < 2 ^ 64) :
    (served sp r sent rest).byteOffset.toNat = r.byteOffset.toNat + sent.flatten.length := by
  change (r.byteOffset + UInt64.ofNat sent.flatten.length).toNat = _
  rw [UInt64.toNat_add, UInt64.toNat_ofNat']
  omega

theorem served_forfeited {sent rest : List Bytes} (fits : longFirst sp sent = false → sp.policy = .rr →
      sent.flatten.length ≤ sp.quantum.toNat)
    (h : sp.policy = .rr → rest ≠ [] → longFirst sp sent = false →
      r.forfeitedBytes.toNat + (sp.quantum.toNat - sent.flatten.length) < 2 ^ 64) :
    (served sp r sent rest).forfeitedBytes.toNat =
      if sp.policy = .rr ∧ rest ≠ [] ∧ longFirst sp sent = false then
        r.forfeitedBytes.toNat + (sp.quantum.toNat - sent.flatten.length)
      else r.forfeitedBytes.toNat := by
  simp only [served]
  split
  · rename_i hr
    have fits := fits hr.2.2 hr.1
    have room := h hr.1 hr.2.1 hr.2.2
    have top := sp.quantum.toNat_lt
    have length : (UInt64.ofNat sent.flatten.length).toNat = sent.flatten.length := by
      rw [UInt64.toNat_ofNat']
      omega
    rw [UInt64.toNat_add, UInt64.toNat_sub_of_le _ _ (UInt64.le_iff_toNat_le.mpr (by omega)), length]
    omega
  · rfl

theorem served_deficit {sent rest : List Bytes} (fits : longFirst sp sent = false → bounded sp.policy = true →
      sent.flatten.length ≤ (allowance sp r.deficit).toNat) (hb : bounded sp.policy = true) :
    (served sp r sent rest).deficit.toNat =
      if longFirst sp sent then r.deficit.toNat
      else if rest = [] then 0
      else if sp.policy = .rr then r.deficit.toNat
      else (allowance sp r.deficit).toNat - sent.flatten.length := by
  simp only [served]
  cases hl : longFirst sp sent with
  | true => rfl
  | false =>
    have fits := fits hl hb
    have top := (allowance sp r.deficit).toNat_lt
    have length : (UInt64.ofNat sent.flatten.length).toNat = sent.flatten.length := by
      rw [UInt64.toNat_ofNat']
      omega
    simp only [Bool.false_eq_true, if_false]
    split
    · rfl
    · split
      · rfl
      · rw [UInt64.toNat_sub_of_le _ _ (UInt64.le_iff_toNat_le.mpr (by omega)), length]

theorem Booked.charge (h : Booked c before ls r) (hp : sp.policy = .rr)
    (unfinished : (roundOf sp r.deficit ls).2 ≠ []) (short : longFirst sp (roundOf sp r.deficit ls).1 = false) :
    r.forfeitedBytes.toNat + (sp.quantum.toNat - (roundOf sp r.deficit ls).1.flatten.length) ≤
      before.flatten.length + (roundOf sp r.deficit ls).1.flatten.length +
        headSize (roundOf sp r.deficit ls).2 - 1 := by
  have forfeited := h.forfeited
  have unused := unused_lt hp unfinished
  have fits := sent_le hp short
  have first := headSize_sent hp r.deficit ls
  omega

theorem Booked.step (h : Booked c before ls r) (sp : SliceParams) :
    Booked c (before ++ (roundOf sp r.deficit ls).1) (roundOf sp r.deficit ls).2
      (served sp (begun r) (roundOf sp r.deficit ls).1 (roundOf sp r.deficit ls).2) := by
  have split := roundOf_append sp r.deficit ls
  have total := h.length
  rw [← split, List.flatten_append, List.length_append] at total
  have small := h.small
  have head := headSize_round sp r.deficit ls
  have start := headSize_le ls
  have tail := headSize_le (roundOf sp r.deficit ls).2
  have offset := h.offset
  have forfeited := h.forfeited
  refine ⟨by rw [List.append_assoc, split, h.cut], h.small, ?_, ?_⟩
  · rw [List.flatten_append, List.length_append]
    exact (served_offset (by simp only [begun]; omega)).trans (by simp only [begun]; omega)
  · rw [List.flatten_append, List.length_append]
    rw [served_forfeited (fun short hp => sent_le hp short) fun hp unfinished short => by
      have := h.charge hp unfinished short
      simp only [begun]
      omega]
    split
    · rename_i hr
      exact h.charge hr.1 hr.2.1 hr.2.2
    · simp only [begun]
      omega

theorem roundOf_free (hb : bounded sp.policy = false) (deficit : UInt64) (ls : List Bytes) :
    roundOf sp deficit ls = (ls, []) := by
  cases hp : sp.policy with
  | fcfs => simp only [roundOf, hp]
  | sjf => simp only [roundOf, hp]
  | rr => simp [bounded, hp] at hb
  | drr => simp [bounded, hp] at hb

theorem roundOf_short (hb : bounded sp.policy = true) (deficit : UInt64) {ls : List Bytes}
    (short : longFirst sp ls = false) :
    roundOf sp deficit ls = Packing.fit List.length (allowance sp deficit).toNat ls := by
  cases hp : sp.policy with
  | fcfs => simp [bounded, hp] at hb
  | sjf => simp [bounded, hp] at hb
  | drr => simp only [roundOf, hp]
  | rr =>
    rw [roundOf_rr hp, allowance_rr hp]
    cases ls with
    | nil => rfl
    | cons line rest =>
      have fits : ¬ sp.quantum.toNat < line.length := by simpa [longFirst, hp] using short
      rw [Packing.round, if_neg fits]

theorem longFirst_sent (deficit : UInt64) {ls : List Bytes} (short : longFirst sp ls = false) :
    longFirst sp (roundOf sp deficit ls).1 = false := by
  have split := roundOf_append sp deficit ls
  cases hsent : (roundOf sp deficit ls).1 with
  | nil => rfl
  | cons line sent =>
    rw [hsent] at split
    rwa [← split, longFirst_append] at short

theorem checkedRound_eq (h : Booked c before ls r) (sp : SliceParams) :
    checkedRound sp c.length (ls.map List.length) (ledgerOf r) =
      some (if (roundOf sp r.deficit ls).2 = [] then .done else .preempted,
        ledgerOf (served sp (begun r) (roundOf sp r.deficit ls).1 (roundOf sp r.deficit ls).2),
        (roundOf sp r.deficit ls).2.map List.length) := by
  have next := h.step sp
  have total := h.length
  have small := h.small
  have offset := h.offset
  have reached := next.offset
  have ledger : (ledgerOf r).deficit = r.deficit.toNat := rfl
  rw [List.flatten_append, List.length_append, ← offset] at reached
  unfold checkedRound
  rw [ledger, checkedAllowance_eq]
  simp only [Option.bind_eq_bind, Option.bind_some]
  cases hb : bounded sp.policy with
  | false =>
    have round := roundOf_free hb r.deficit ls
    have short : longFirst sp ls = false := by
      cases ls with
      | nil => rfl
      | cons line rest => cases hp : sp.policy <;> simp_all [longFirst, bounded]
    simp only [round] at reached ⊢
    have accounts : ledgerOf (served sp (begun r) ls []) =
        ⟨r.byteOffset.toNat + ls.flatten.length, r.forfeitedBytes.toNat, 0⟩ := by
      simp only [ledgerOf, reached, Ledger.mk.injEq, true_and]
      simp [served, begun, short]
    rw [checkedLines_unbounded hb ls _ _ _ (by simp only [ledgerOf]; omega) (by omega), accounts]
    rfl
  | true =>
    cases hl : longFirst sp ls with
    | true =>
      cases ls with
      | nil => cases hl
      | cons line rest =>
        have alone : longFirst sp [line] = true := hl
        have pos := List.length_pos_iff.mpr (h.nonempty line List.mem_cons_self)
        simp only [roundOf_long r.deficit hl] at reached ⊢
        simp only [longFirst, Bool.and_eq_true, decide_eq_true_eq] at hl
        simp only [List.flatten_cons, List.flatten_nil, List.append_nil, List.length_append] at total reached
        have accounts : ledgerOf (served sp (begun r) [line] rest) =
            ⟨r.byteOffset.toNat + line.length, r.forfeitedBytes.toNat, r.deficit.toNat⟩ := by
          simp only [ledgerOf, reached, Ledger.mk.injEq, true_and]
          simp [served, begun, alone]
        have ended : c.length ≤ r.byteOffset.toNat + line.length ↔ rest = [] := by
          rw [offset, total]
          constructor
          · intro le
            by_contra hne
            obtain ⟨line', rest', rfl⟩ := List.exists_cons_of_ne_nil hne
            have pos' := List.length_pos_iff.mpr (h.nonempty line' (by simp))
            rw [List.flatten_cons, List.length_append] at le
            omega
          · rintro rfl
            simp
        rw [List.map_cons, checkedLines, if_pos ⟨hl.1, rfl, hl.2⟩, accounts]
        rw [show (ledgerOf r).byteOffset = r.byteOffset.toNat from rfl, checkedAdd_eq (by omega)]
        simp only [Option.bind_eq_bind, Option.bind_some, ended]
        rfl
    | false =>
      have round := roundOf_short hb r.deficit hl
      have short := longFirst_sent r.deficit hl
      have fits := Packing.total_fit_le List.length (allowance sp r.deficit).toNat ls
      have split := congrArg (fun x => x.flatten.length) (roundOf_append sp r.deficit ls)
      simp only [List.flatten_append, List.length_append] at split
      have tail := headSize_le (roundOf sp r.deficit ls).2
      rw [total_length, ← round] at fits
      have room : sp.policy = .rr → (roundOf sp r.deficit ls).2 ≠ [] → r.forfeitedBytes.toNat +
          ((allowance sp r.deficit).toNat - (roundOf sp r.deficit ls).1.flatten.length) < 2 ^ 64 := by
        intro hp unfinished
        have charged := h.charge hp unfinished short
        rw [allowance_rr hp]
        omega
      have accounts : ledgerOf (served sp (begun r) (roundOf sp r.deficit ls).1 (roundOf sp r.deficit ls).2) =
          { byteOffset := r.byteOffset.toNat + (roundOf sp r.deficit ls).1.flatten.length
            forfeitedBytes :=
              if sp.policy = .rr ∧ (roundOf sp r.deficit ls).2 ≠ [] then r.forfeitedBytes.toNat +
                ((allowance sp r.deficit).toNat - (roundOf sp r.deficit ls).1.flatten.length)
              else r.forfeitedBytes.toNat
            deficit :=
              if (roundOf sp r.deficit ls).2 = [] then 0
              else if sp.policy = .rr then r.deficit.toNat
              else (allowance sp r.deficit).toNat - (roundOf sp r.deficit ls).1.flatten.length } := by
        rw [ledgerOf, reached, served_deficit (r := begun r) (fun _ _ => fits) hb, short,
          served_forfeited (r := begun r) (fun short hp => sent_le hp short) fun hp unfinished _ => by
            have := room hp unfinished
            rwa [allowance_rr hp] at this]
        simp only [Ledger.mk.injEq, true_and, Bool.false_eq_true, if_false]
        refine ⟨?_, rfl⟩
        by_cases hp : sp.policy = .rr
        · simp only [allowance_rr hp, short, and_true]
          rfl
        · rw [if_neg (fun hr => hp hr.1), if_neg (fun hr => hp hr.1)]
          rfl
      rw [checkedLines_bounded hb h.nonempty ?_ (by simp only [ledgerOf]; omega) (by omega) ?_]
      · rw [← round, accounts]
        rfl
      · rintro hp - line rest rfl
        simpa [longFirst, hp] using hl
      · rw [← round]
        exact room

end Booked

end LinkScheduling
