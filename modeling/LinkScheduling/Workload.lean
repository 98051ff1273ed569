import LinkScheduling.Quantum

/-! The sample files, after `gen_workload.py`, for any generator of random numbers: short lines until
the size is reached, and in the large file long lines at even distances. What a server under `rr` or
`drr` makes of them rests on the lengths of their lines alone. -/

namespace LinkScheduling
open Lines Effect

/-- `random.Random` with its state: a choice is a member, a number lies between its bounds. -/
structure Rng (σ : Type) where
  choice : List Bytes → σ → Bytes × σ
  randint : Nat → Nat → σ → Nat × σ
  choice_mem : ∀ ws s, ws ≠ [] → (choice ws s).1 ∈ ws
  randint_le : ∀ lo hi s, lo ≤ hi → lo ≤ (randint lo hi s).1 ∧ (randint lo hi s).1 ≤ hi

def WORDS : List Bytes :=
  [ascii "the", ascii "quick", ascii "brown", ascii "fox", ascii "jumps", ascii "over", ascii "the", ascii "lazy",
    ascii "dog", ascii "while", ascii "packets", ascii "traverse", ascii "the", ascii "network", ascii "stack",
    ascii "and", ascii "the", ascii "scheduler", ascii "drains", ascii "its", ascii "queue", ascii "in",
    ascii "careful", ascii "deterministic", ascii "order"]

def fitToLength (words : List Bytes) (contentLen : Nat) : Bytes :=
  let line := [space].intercalate words
  if line.length < contentLen then line ++ List.replicate (contentLen - line.length) space
  else line.take contentLen

section Draws
variable {σ : Type} (rng : Rng σ)

/-- The words of a line; every turn adds a byte at least, so `fuel` turns reach any length up to it. -/
def drawWords (contentLen : Nat) : Nat → List Bytes → Nat → σ → List Bytes × σ
  | 0, words, _, s => (words, s)
  | fuel + 1, words, length, s =>
    if length < contentLen then
      let (w, s) := rng.choice WORDS s
      drawWords contentLen fuel (words ++ [w]) (length + w.length + 1) s
    else (words, s)

def makeShortLine (targetLen : Nat) (s : σ) : Bytes × σ :=
  let (words, s) := drawWords rng (targetLen - 1) (targetLen - 1) [] 0 s
  (fitToLength words (targetLen - 1) ++ [newline], s)

def makeLongLine (targetLen : Nat) (s : σ) : Bytes × σ :=
  let (words, s) := drawWords rng (targetLen - 1) (targetLen - 1) [] 0 s
  (fitToLength words (targetLen - 1) ++ [newline], s)

def ordinaryLines (targetBytes : Nat) : Nat → Nat → σ → List Bytes
  | 0, _, _ => []
  | fuel + 1, written, s =>
    if written < targetBytes then
      let (lineLen, s) := rng.randint 60 79 s
      let (line, s) := makeShortLine rng lineLen s
      line :: ordinaryLines targetBytes fuel (written + line.length) s
    else []

def writeOrdinaryFile (targetBytes : Nat) (s : σ) : Bytes := (ordinaryLines rng targetBytes targetBytes 0 s).flatten

/-- The lines of the large file, where `longLeft` of them are still to be long. -/
def largeLines (targetBytes longLineLen : Nat) (gapBytes : Int) : Nat → Nat → Nat → Nat → Int → σ → List Bytes
  | 0, _, _, _, _, _ => []
  | fuel + 1, written, shortWritten, longLeft, nextLongAt, s =>
    if written < targetBytes then
      if 0 < longLeft ∧ nextLongAt ≤ shortWritten then
        let (line, s) := makeLongLine rng longLineLen s
        line :: largeLines targetBytes longLineLen gapBytes fuel (written + line.length) shortWritten (longLeft - 1)
          (nextLongAt + gapBytes) s
      else
        let (lineLen, s) := rng.randint 60 79 s
        let (line, s) := makeShortLine rng lineLen s
        line :: largeLines targetBytes longLineLen gapBytes fuel (written + line.length) (shortWritten + line.length)
          longLeft nextLongAt s
    else []

def writeLargeWithLongLines (targetBytes numLongLines longLineLen : Nat) (s : σ) : Bytes :=
  let totalShortBytes : Int := targetBytes - numLongLines * longLineLen
  let gapBytes := totalShortBytes.fdiv (numLongLines + 1)
  (largeLines rng targetBytes longLineLen gapBytes targetBytes 0 0 numLongLines gapBytes s).flatten

/-- A line with its newline, and no other. -/
structure Whole (n : Nat) (line : Bytes) : Prop where
  length : line.length = n
  ended : ∃ u, line = u ++ [newline] ∧ newline ∉ u

theorem words_unbroken {w : Bytes} (h : w ∈ WORDS) : newline ∉ w := by
  have all : ∀ w ∈ WORDS, newline ∉ w := by decide +kernel
  exact all w h

theorem intercalate_unbroken {words : List Bytes} (h : ∀ w ∈ words, newline ∉ w) :
    newline ∉ [space].intercalate words := by
  induction words with
  | nil => simp
  | cons w words ih =>
    have rest := ih fun w hw => h w (List.mem_cons_of_mem _ hw)
    cases words with
    | nil => simpa using h w List.mem_cons_self
    | cons w' words =>
      rw [List.intercalate_cons_cons, List.mem_append, List.mem_append, not_or, not_or]
      exact ⟨⟨h w List.mem_cons_self, by decide⟩, rest⟩

theorem fitToLength_length (words : List Bytes) (n : Nat) : (fitToLength words n).length = n := by
  unfold fitToLength
  simp only
  split
  · rw [List.length_append, List.length_replicate]
    omega
  · rw [List.length_take]
    omega

theorem fitToLength_unbroken {words : List Bytes} (h : ∀ w ∈ words, newline ∉ w) (n : Nat) :
    newline ∉ fitToLength words n := by
  have joined := intercalate_unbroken h
  unfold fitToLength
  simp only
  split
  · rw [List.mem_append, not_or, List.mem_replicate]
    exact ⟨joined, fun padded => absurd padded.2 (by decide)⟩
  · exact fun mem => joined (List.mem_of_mem_take mem)

theorem drawWords_unbroken (contentLen fuel : Nat) {words : List Bytes} (length : Nat) (s : σ)
    (h : ∀ w ∈ words, newline ∉ w) : ∀ w ∈ (drawWords rng contentLen fuel words length s).1, newline ∉ w := by
  induction fuel generalizing words length s with
  | zero => exact h
  | succ fuel ih =>
    unfold drawWords
    split
    · apply ih
      intro w hw
      rcases List.mem_append.mp hw with hw | hw
      · exact h w hw
      · rw [List.mem_singleton.mp hw]
        exact words_unbroken (rng.choice_mem WORDS s (by decide))
    · exact h

theorem makeShortLine_whole {n : Nat} (pos : 0 < n) (s : σ) : Whole n (makeShortLine rng n s).1 where
  length := by
    simp only [makeShortLine, List.length_append, fitToLength_length, List.length_singleton]
    omega
  ended := ⟨_, rfl, fitToLength_unbroken (drawWords_unbroken rng _ _ 0 s (List.forall_mem_nil _)) _⟩

theorem makeLongLine_whole {n : Nat} (pos : 0 < n) (s : σ) : Whole n (makeLongLine rng n s).1 :=
  makeShortLine_whole rng pos s

end Draws

theorem lines_whole {n : Nat} {line : Bytes} (h : Whole n line) (rest : Bytes) :
    lines newline (line ++ rest) = line :: lines newline rest := by
  obtain ⟨u, rfl, unbroken⟩ := h.ended
  clear h
  induction u with
  | nil => simp [lines]
  | cons b u ih =>
    rw [List.mem_cons, not_or] at unbroken
    rw [List.cons_append, List.cons_append, lines, if_neg (Ne.symm unbroken.1), ih unbroken.2]

theorem lines_flatten_whole {ls : List Bytes} (h : ∀ line ∈ ls, ∃ n, Whole n line) : lines newline ls.flatten = ls := by
  induction ls with
  | nil => rfl
  | cons line ls ih =>
    obtain ⟨n, whole⟩ := h line List.mem_cons_self
    rw [List.flatten_cons, lines_whole whole, ih fun line hl => h line (List.mem_cons_of_mem _ hl)]

def Short (line : Bytes) : Prop := ∃ n, 60 ≤ n ∧ n ≤ 79 ∧ Whole n line

section Files
variable {σ : Type} (rng : Rng σ)

theorem shortLine_short (s : σ) : Short (makeShortLine rng (rng.randint 60 79 s).1 (rng.randint 60 79 s).2).1 := by
  have bounds := rng.randint_le 60 79 s (by decide)
  exact ⟨_, bounds.1, bounds.2, makeShortLine_whole rng (by omega) _⟩

theorem ordinaryLines_succ {target fuel written : Nat} (more : written < target) (s : σ) :
    ordinaryLines rng target (fuel + 1) written s =
      (makeShortLine rng (rng.randint 60 79 s).1 (rng.randint 60 79 s).2).1 :: ordinaryLines rng target fuel
        (written + (makeShortLine rng (rng.randint 60 79 s).1 (rng.randint 60 79 s).2).1.length)
        (makeShortLine rng (rng.randint 60 79 s).1 (rng.randint 60 79 s).2).2 := by
  rw [ordinaryLines, if_pos more]

theorem ordinaryLines_spec (target fuel written : Nat) (s : σ) (enough : target ≤ written + fuel)
    (within : written ≤ target + 78) :
    (∀ line ∈ ordinaryLines rng target fuel written s, Short line) ∧
      target ≤ written + (ordinaryLines rng target fuel written s).flatten.length ∧
      written + (ordinaryLines rng target fuel written s).flatten.length ≤ target + 78 := by
  induction fuel generalizing written s with
  | zero => exact ⟨List.forall_mem_nil _, by simpa [ordinaryLines] using enough, by simpa [ordinaryLines] using within⟩
  | succ fuel ih =>
    by_cases more : written < target
    · obtain ⟨n, low, high, whole⟩ := shortLine_short rng s
      have length := whole.length
      rw [ordinaryLines_succ rng more]
      obtain ⟨all, reached, bound⟩ := ih (written + n) (makeShortLine rng (rng.randint 60 79 s).1 (rng.randint 60 79 s).2).2
        (by omega) (by omega)
      rw [length, List.flatten_cons, List.length_append, length]
      exact ⟨List.forall_mem_cons.mpr ⟨⟨n, low, high, whole⟩, all⟩, by omega, by omega⟩
    · rw [ordinaryLines, if_neg more]
      exact ⟨List.forall_mem_nil _, Nat.not_lt.mp more, within⟩

/-- Before a line of the large file: `short` bytes of short lines and all long lines but `left` are
written, and the short lines are not far ahead of the next long one. -/
structure Spread (target num long : Nat) (gap : Int) (written short left : Nat) (nextAt : Int) : Prop where
  balance : written + left * long = short + num * long
  next : nextAt + gap * left = gap * (num + 1)
  near : 0 < left → (short : Int) ≤ nextAt + 78
  within : written ≤ target + 78

section Spread
variable {target num long : Nat} {gap : Int} {written short left : Nat} {nextAt : Int}

theorem Spread.done (h : Spread target num long gap written short left nextAt) (wide : 80 ≤ long)
    (fits : gap * (num + 1) ≤ target - (num * long : Nat)) (forward : 0 ≤ gap) (reached : target ≤ written) : left = 0 := by
  have balance := h.balance
  have next := h.next
  cases left with
  | zero => rfl
  | succ l =>
    have near := h.near (Nat.succ_pos l)
    have ahead : 0 ≤ gap * (l : Int) := Int.mul_nonneg forward (Int.natCast_nonneg l)
    rw [Nat.succ_mul] at balance
    push_cast at next
    rw [Int.mul_add gap l 1, Int.mul_one] at next
    generalize gap * (l : Int) = g at *
    generalize gap * ((num : Int) + 1) = all at *
    generalize num * long = longs at *
    generalize l * long = rest at *
    omega

theorem Spread.longLine {l : Nat} (h : Spread target num long gap written short (l + 1) nextAt)
    (fits : gap * (num + 1) ≤ target - (num * long : Nat)) (forward : 0 ≤ gap) :
    Spread target num long gap (written + long) short l (nextAt + gap) := by
  have balance := h.balance
  have next := h.next
  have near := h.near (Nat.succ_pos l)
  have ahead : 0 ≤ gap * (l : Int) := Int.mul_nonneg forward (Int.natCast_nonneg l)
  rw [Nat.succ_mul] at balance
  push_cast at next
  rw [Int.mul_add gap l 1, Int.mul_one] at next
  refine ⟨?_, ?_, fun _ => ?_, ?_⟩
  · omega
  · omega
  · omega
  · generalize gap * (l : Int) = g at *
    generalize gap * ((num : Int) + 1) = all at *
    generalize num * long = longs at *
    generalize l * long = rest at *
    omega

theorem Spread.shortLine (h : Spread target num long gap written short left nextAt) {n : Nat} (high : n ≤ 79)
    (more : written < target) (early : ¬ (0 < left ∧ nextAt ≤ short)) :
    Spread target num long gap (written + n) (short + n) left nextAt := by
  have balance := h.balance
  refine ⟨by omega, h.next, fun left => ?_, by omega⟩
  have ahead : ¬ nextAt ≤ short := fun due => early ⟨left, due⟩
  push_cast
  omega

end Spread

theorem largeLines_long {target long fuel written short left : Nat} {gap nextAt : Int} (more : written < target)
    (due : 0 < left ∧ nextAt ≤ short) (s : σ) : largeLines rng target long gap (fuel + 1) written short left nextAt s =
      (makeLongLine rng long s).1 :: largeLines rng target long gap fuel (written + (makeLongLine rng long s).1.length) short
        (left - 1) (nextAt + gap) (makeLongLine rng long s).2 := by
  rw [largeLines, if_pos more, if_pos due]

theorem largeLines_short {target long fuel written short left : Nat} {gap nextAt : Int} (more : written < target)
    (early : ¬ (0 < left ∧ nextAt ≤ short)) (s : σ) :
    largeLines rng target long gap (fuel + 1) written short left nextAt s =
      (makeShortLine rng (rng.randint 60 79 s).1 (rng.randint 60 79 s).2).1 :: largeLines rng target long gap fuel
        (written + (makeShortLine rng (rng.randint 60 79 s).1 (rng.randint 60 79 s).2).1.length)
        (short + (makeShortLine rng (rng.randint 60 79 s).1 (rng.randint 60 79 s).2).1.length) left nextAt
        (makeShortLine rng (rng.randint 60 79 s).1 (rng.randint 60 79 s).2).2 := by
  rw [largeLines, if_pos more, if_neg early]

theorem largeLines_spec {target num long : Nat} {gap : Int} (wide : 80 ≤ long)
    (fits : gap * (num + 1) ≤ target - (num * long : Nat)) (forward : 0 ≤ gap) (fuel written short left : Nat) (nextAt : Int)
    (s : σ) (enough : target ≤ written + fuel) (inv : Spread target num long gap written short left nextAt) :
    (∀ line ∈ largeLines rng target long gap fuel written short left nextAt s, Short line ∨ Whole long line) ∧
      (largeLines rng target long gap fuel written short left nextAt s).countP (fun line => 79 < line.length) = left ∧
      target ≤ written + (largeLines rng target long gap fuel written short left nextAt s).flatten.length ∧
      written + (largeLines rng target long gap fuel written short left nextAt s).flatten.length ≤ target + 78 := by
  have stop : ∀ {written short left : Nat} {nextAt : Int}, target ≤ written →
      Spread target num long gap written short left nextAt →
      (∀ line ∈ ([] : List Bytes), Short line ∨ Whole long line) ∧
        ([] : List Bytes).countP (fun line => 79 < line.length) = left ∧
        target ≤ written + ([] : List Bytes).flatten.length ∧ written + ([] : List Bytes).flatten.length ≤ target + 78 := by
    intro written short left nextAt reached inv
    exact ⟨List.forall_mem_nil _, (inv.done wide fits forward reached).symm, reached, inv.within⟩
  induction fuel generalizing written short left nextAt s with
  | zero => exact stop (by omega) inv
  | succ fuel ih =>
    by_cases more : written < target
    · by_cases due : 0 < left ∧ nextAt ≤ short
      · obtain ⟨l, rfl⟩ := Nat.exists_eq_add_of_lt due.1
        rw [Nat.zero_add] at inv due ⊢
        have whole := makeLongLine_whole rng (Nat.lt_of_lt_of_le (by decide) wide) s
        have length := whole.length
        obtain ⟨all, count, reached, bound⟩ := ih (written + long) short l (nextAt + gap) (makeLongLine rng long s).2
          (by omega) (inv.longLine fits forward)
        have over_ : 79 < (makeLongLine rng long s).1.length := by omega
        rw [largeLines_long rng more due, length, Nat.add_sub_cancel, List.countP_cons_of_pos (by simpa using over_), count,
          List.flatten_cons, List.length_append, length]
        exact ⟨List.forall_mem_cons.mpr ⟨.inr whole, all⟩, rfl, by omega, by omega⟩
      · obtain ⟨n, low, high, whole⟩ := shortLine_short rng s
        have length := whole.length
        obtain ⟨all, count, reached, bound⟩ := ih (written + n) (short + n) left nextAt
          (makeShortLine rng (rng.randint 60 79 s).1 (rng.randint 60 79 s).2).2 (by omega) (inv.shortLine high more due)
        have within : ¬ 79 < (makeShortLine rng (rng.randint 60 79 s).1 (rng.randint 60 79 s).2).1.length := by omega
        rw [largeLines_short rng more due, length, List.countP_cons_of_neg (by simpa using within), count, List.flatten_cons,
          List.length_append, length]
        exact ⟨List.forall_mem_cons.mpr ⟨.inl ⟨n, low, high, whole⟩, all⟩, rfl, by omega, by omega⟩
    · rw [largeLines, if_neg more]
      exact stop (Nat.not_lt.mp more) inv

/-- A sample file of `target` bytes: `num` of its lines have `long` bytes and the others at most 79. -/
structure Sample (target num long : Nat) (file : Bytes) : Prop where
  shape : ∀ line ∈ lines newline file, Short line ∨ Whole long line
  longs : (lines newline file).countP (fun line => 79 < line.length) = num
  low : target ≤ file.length
  high : file.length ≤ target + 78

theorem writeOrdinaryFile_sample (target long : Nat) (s : σ) : Sample target 0 long (writeOrdinaryFile rng target s) := by
  obtain ⟨all, reached, bound⟩ := ordinaryLines_spec rng target target 0 s (Nat.le_add_left _ _) (Nat.zero_le _)
  have split : lines newline (writeOrdinaryFile rng target s) = ordinaryLines rng target target 0 s := by
    apply lines_flatten_whole
    intro line mem
    obtain ⟨n, -, -, whole⟩ := all line mem
    exact ⟨n, whole⟩
  rw [Nat.zero_add] at reached bound
  refine ⟨?_, ?_, reached, bound⟩
  · rw [split]
    exact fun line mem => .inl (all line mem)
  · rw [split, List.countP_eq_zero]
    intro line mem
    obtain ⟨n, -, high, whole⟩ := all line mem
    simp [whole.length, high]

theorem writeLargeWithLongLines_sample {target num long : Nat} (wide : 80 ≤ long) (fits : num * long ≤ target) (s : σ) :
    Sample target num long (writeLargeWithLongLines rng target num long s) := by
  have total : (0 : Int) ≤ target - num * long := by exact_mod_cast Int.sub_nonneg.mpr (Int.ofNat_le.mpr fits)
  have pos : (0 : Int) < (num : Int) + 1 := by omega
  have gap : ((target : Int) - num * long).fdiv (num + 1) = ((target : Int) - num * long) / (num + 1) :=
    Int.fdiv_eq_ediv_of_nonneg _ pos.le
  have forward : 0 ≤ ((target : Int) - num * long).fdiv (num + 1) := gap ▸ Int.ediv_nonneg total pos.le
  have spaced : ((target : Int) - num * long).fdiv (num + 1) * (num + 1) ≤ target - (num * long : Nat) := by
    rw [gap, Nat.cast_mul]
    exact Int.ediv_mul_le _ pos.ne'
  have inv : Spread target num long (((target : Int) - num * long).fdiv (num + 1)) 0 0 num
      (((target : Int) - num * long).fdiv (num + 1)) :=
    ⟨rfl, by rw [Int.mul_add, Int.mul_one, Int.add_comm], fun _ => by push_cast; omega, Nat.zero_le _⟩
  obtain ⟨all, count, reached, bound⟩ := largeLines_spec rng wide spaced forward target 0 0 num _ s (Nat.le_add_left _ _) inv
  have split : lines newline (writeLargeWithLongLines rng target num long s) =
      largeLines rng target long (((target : Int) - num * long).fdiv (num + 1)) target 0 0 num
        (((target : Int) - num * long).fdiv (num + 1)) s := by
    apply lines_flatten_whole
    intro line mem
    rcases all line mem with ⟨n, -, -, whole⟩ | whole
    · exact ⟨n, whole⟩
    · exact ⟨long, whole⟩
  rw [Nat.zero_add] at reached bound
  refine ⟨?_, ?_, reached, bound⟩
  · rw [split]
    exact all
  · rw [split]
    exact count

end Files

section Served
variable {target num long : Nat} {file : Bytes} {sp : SliceParams}

theorem Sample.longLines (h : Sample target num long file) (above : 79 ≤ sp.quantum.toNat) (below : sp.quantum.toNat < long)
    (r : Request) : longLines sp r (lines newline file) =
      List.replicate num (r.id, r.filename, UInt64.ofNat long, sp.quantum) := by
  have only : ∀ line ∈ lines newline file, sp.quantum.toNat < line.length → line.length = long := by
    intro line mem over_
    rcases h.shape line mem with ⟨n, -, high, whole⟩ | whole
    · have length := whole.length
      omega
    · exact whole.length
  have same : (lines newline file).countP (fun line => sp.quantum.toNat < line.length) = num := by
    rw [← h.longs]
    apply List.countP_congr
    intro line mem
    simp only [decide_eq_true_eq]
    constructor
    · omega
    · intro over_
      rcases h.shape line mem with ⟨n, -, high, whole⟩ | whole
      · have length := whole.length
        omega
      · rw [whole.length]
        exact below
  rw [List.eq_replicate_iff]
  constructor
  · rw [LinkScheduling.longLines, List.length_map, ← List.countP_eq_length_filter, same]
  · intro entry mem
    obtain ⟨line, hline, rfl⟩ := List.mem_map.mp mem
    obtain ⟨inside, over_⟩ := List.mem_filter.mp hline
    rw [only line inside (by simpa using over_)]

theorem GetRun.a14_drr {fd : Int} {c : Bytes} {before : List Bytes} {ls : List Bytes} {j : Job} {rounds : List Round}
    (run : GetRun fd sp c before ls j rounds) (hp : sp.policy = .drr) : roundsA14 rounds = [] := by
  rw [roundsA14, List.flatten_eq_nil_iff]
  intro as mem
  obtain ⟨o, ho, rfl⟩ := List.mem_map.mp mem
  obtain ⟨_, _, _, _, round⟩ := run.round_of_mem o ho
  obtain ⟨_, -, puts⟩ := round.puts
  rw [puts.shows.a14, a14Lines, longFirst_drr hp]
  rfl

/-- Whatever the generator draws, the large file has its long lines and its size, and a download of
it that meets no fault logs each of them once under `rr`, and none under `drr`. -/
theorem large_file_fires {σ : Type} (rng : Rng σ) (seed : σ) (wide : 80 ≤ long) (fits : num * long ≤ target)
    (above : 79 ≤ sp.quantum.toNat) (below : sp.quantum.toNat < long) {j : Job}
    (fresh : FreshGet (writeLargeWithLongLines rng target num long seed) j) (obliging : j.Obliging) (fd : Int) {fuel : Nat}
    (enough : target + 78 < fuel) : Sample target num long (writeLargeWithLongLines rng target num long seed) ∧
    (sp.policy = .rr → roundsA14 (serveRounds fd sp fuel j) =
      List.replicate num (j.req.id, j.req.filename, UInt64.ofNat long, sp.quantum)) ∧
    (sp.policy = .drr → roundsA14 (serveRounds fd sp fuel j) = []) := by
  have sample := writeLargeWithLongLines_sample rng wide fits seed
  have high := sample.high
  have run := fresh.run obliging fd (fun _ => Nat.lt_of_lt_of_le (by decide) above) (Nat.lt_of_le_of_lt high enough)
  exact ⟨sample, fun hp => (run.a14_rr hp).trans (sample.longLines above below j.req), run.a14_drr⟩

def firstRng : Rng Unit where
  choice ws s := (ws.headD [], s)
  randint lo _ s := (lo, s)
  choice_mem ws s h := by
    obtain ⟨w, rest, rfl⟩ := List.exists_cons_of_ne_nil h
    exact List.mem_cons_self
  randint_le lo hi s h := ⟨Nat.le_refl lo, h⟩

theorem large_file_fires_first : (writeLargeWithLongLines firstRng 300 2 100 ()).length = 320 ∧
    Sample 300 2 100 (writeLargeWithLongLines firstRng 300 2 100 ()) ∧
    roundsA14 (serveRounds 7 { policy := .rr, quantum := 80 } 400
      (singleGet [102] (writeLargeWithLongLines firstRng 300 2 100 ()) [])) =
        [(1, [102], 100, 80), (1, [102], 100, 80)] ∧
    roundsA14 (serveRounds 7 { policy := .drr, quantum := 80 } 400
      (singleGet [102] (writeLargeWithLongLines firstRng 300 2 100 ()) [])) = [] := by
  have length : (writeLargeWithLongLines firstRng 300 2 100 ()).length = 320 := by decide +kernel
  have fresh : FreshGet (writeLargeWithLongLines firstRng 300 2 100 ())
      (singleGet [102] (writeLargeWithLongLines firstRng 300 2 100 ()) []) :=
    singleGet_fresh [102] [] (by rw [length]; decide)
  have obliging : (singleGet [102] (writeLargeWithLongLines firstRng 300 2 100 ()) []).Obliging := List.forall_mem_nil _
  have fires : ∀ sp : SliceParams, 79 ≤ sp.quantum.toNat → sp.quantum.toNat < 100 →
      Sample 300 2 100 (writeLargeWithLongLines firstRng 300 2 100 ()) ∧
      (sp.policy = .rr → roundsA14 (serveRounds 7 sp 400 (singleGet [102] (writeLargeWithLongLines firstRng 300 2 100 ()) [])) =
        List.replicate 2 (1, [102], UInt64.ofNat 100, sp.quantum)) ∧
      (sp.policy = .drr →
        roundsA14 (serveRounds 7 sp 400 (singleGet [102] (writeLargeWithLongLines firstRng 300 2 100 ()) [])) = []) :=
    fun sp above below => large_file_fires firstRng () (by decide) (by decide) above below fresh obliging 7 (by decide)
  exact ⟨length, (fires { policy := .rr, quantum := 80 } (by decide) (by decide)).1,
    (fires { policy := .rr, quantum := 80 } (by decide) (by decide)).2.1 rfl,
    (fires { policy := .drr, quantum := 80 } (by decide) (by decide)).2.2 rfl⟩

end Served

end LinkScheduling
