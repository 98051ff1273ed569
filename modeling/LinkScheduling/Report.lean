import LinkScheduling.Metrics
import LinkScheduling.Percentiles

/-! What `run_metrics` of `scripts/metrics.py` reports of the metrics of a run. The rows of the
seeding uploads are known by their times of arrival; the others are counted by the size of their
file, and their waits and response times have their nearest ranks. -/

namespace LinkScheduling
open Csv

/-- `rows[k:]`, where a negative `k` counts from the end. -/
def sliceFrom {α : Type} (rows : List α) (k : Int) : List α :=
  if 0 ≤ k then rows.drop k.toNat else rows.drop (rows.length - (-k).toNat)

def excludeSeedRows (rows : List Record) (seedCount : Int) : List Record :=
  let rowsSorted := rows.insertionSort (·.arrivalNs ≤ ·.arrivalNs)
  sliceFrom rowsSorted seedCount

inductive SizeClass
  | small
  | medium
  | large
  deriving DecidableEq

/-- `lower` is `str.lower`. -/
def sizeClass (lower : Text → Text) (filename : Text) (numBytes : Int) : SizeClass :=
  let name := lower filename
  if "small".toList <:+: name then .small
  else if "medium".toList <:+: name then .medium
  else if "large".toList <:+: name then .large
  else if numBytes < 5 * 1024 then .small
  else if numBytes < 80 * 1024 then .medium
  else .large

namespace Record

def waiting (r : Record) : Int := r.startNs - r.arrivalNs

def response (r : Record) : Int := r.finishNs - r.arrivalNs

/-- A row without a name has no class. -/
def class? (lower : Text → Text) (r : Record) : Option SizeClass := r.filename.join.map (sizeClass lower · r.bytes)

end Record

structure ClassMetrics where
  n : Nat
  nGet : Nat
  waitP50Ns : Option Int
  waitP99Ns : Option Int
  forfeited : Int
  roundsMaxGet : Int

structure RunMetrics where
  n : Nat
  waitP50Ns : Option Int
  waitP99Ns : Option Int
  respP50Ns : Option Int
  respP99Ns : Option Int
  /-- The length of the run, by which the throughput divides `n`. -/
  windowNs : Int
  byClass : SizeClass → ClassMetrics

def classMetrics (crows : List Record) : ClassMetrics :=
  let cw := sorted (crows.map Record.waiting)
  let gets := crows.filter (·.op.join = some "GET".toList)
  { n := crows.length
    nGet := gets.length
    waitP50Ns := nearestRankPercentile cw 50
    waitP99Ns := nearestRankPercentile cw 99
    forfeited := (crows.map Record.forfeitedBytes).sum
    roundsMaxGet := (gets.map Record.rounds).max?.getD 0 }

def reportOf (lower : Text → Text) (rows : List Record) (windowNs : Int) : RunMetrics :=
  let waiting := sorted (rows.map Record.waiting)
  let response := sorted (rows.map Record.response)
  { n := rows.length
    waitP50Ns := nearestRankPercentile waiting 50
    waitP99Ns := nearestRankPercentile waiting 99
    respP50Ns := nearestRankPercentile response 50
    respP99Ns := nearestRankPercentile response 99
    windowNs
    byClass := fun cls => classMetrics (rows.filter (·.class? lower = some cls)) }

/-- It raises where there is no row, where the run has no length, where a row has no name, and where the
rows have no operations. -/
def runMetrics (lower : Text → Text) (file : Bytes) (seedCount : Int) : Option RunMetrics := do
  let rows := excludeSeedRows (← loadRows file) seedCount
  let windowNs := (← (rows.map Record.finishNs).max?) - (← (rows.map Record.arrivalNs).min?)
  if windowNs = 0 ∨ rows.any (fun r => r.filename.join.isNone || r.op.isNone) then none
  else pure (reportOf lower rows windowNs)

theorem filter_cut {α : Type} {P : α → Bool} {xs : List α} (h : xs.Pairwise fun a b => P a = true → P b = true) :
    xs.filter (fun a => !P a) ++ xs.filter P = xs := by
  induction xs with
  | nil => rfl
  | cons a xs ih =>
    obtain ⟨first, rest⟩ := List.pairwise_cons.mp h
    by_cases ha : P a = true
    · have all : ∀ b ∈ xs, P b = true := fun b hb => first b hb ha
      have none : xs.filter (fun a => !P a) = [] := by
        rw [List.filter_eq_nil_iff]
        intro b hb
        simp [all b hb]
      rw [List.filter_cons_of_neg (by simp [ha]), List.filter_cons_of_pos ha, none, List.filter_eq_self.mpr all,
        List.nil_append]
    · rw [List.filter_cons_of_pos (by simp [ha]), List.filter_cons_of_neg ha, List.cons_append, ih rest]

theorem excludeSeedRows_perm {rows seeds others : List Record} (perm : rows.Perm (seeds ++ others))
    (first : ∀ s ∈ seeds, ∀ o ∈ others, s.arrivalNs < o.arrivalNs) :
    (excludeSeedRows rows seeds.length).Perm others := by
  let late (r : Record) : Bool := seeds.all fun s => s.arrivalNs < r.arrivalNs
  have seeding : ∀ s ∈ seeds, ¬ late s = true := by
    intro s hs after
    have self := List.all_eq_true.mp after s hs
    simp at self
  have other : ∀ o ∈ others, late o = true := by
    intro o ho
    rw [List.all_eq_true]
    intro s hs
    simpa using first s hs o ho
  have order : (rows.insertionSort (·.arrivalNs ≤ ·.arrivalNs)).Perm (seeds ++ others) :=
    (List.perm_insertionSort _ rows).trans perm
  have ascending : (rows.insertionSort (·.arrivalNs ≤ ·.arrivalNs)).Pairwise (·.arrivalNs ≤ ·.arrivalNs) := by
    have : Std.Total fun a b : Record => a.arrivalNs ≤ b.arrivalNs := ⟨fun a b => le_total a.arrivalNs b.arrivalNs⟩
    have : IsTrans Record fun a b => a.arrivalNs ≤ b.arrivalNs := ⟨fun a b c => le_trans⟩
    exact List.pairwise_insertionSort _ rows
  have upward : (rows.insertionSort (·.arrivalNs ≤ ·.arrivalNs)).Pairwise fun a b => late a = true → late b = true := by
    refine ascending.imp fun {a b} le after => ?_
    rw [List.all_eq_true] at after ⊢
    intro s hs
    have before := after s hs
    simp only [decide_eq_true_eq] at before ⊢
    exact lt_of_lt_of_le before le
  have early : (seeds ++ others).filter (fun r => !late r) = seeds := by
    rw [List.filter_append, List.filter_eq_self.mpr, List.filter_eq_nil_iff.mpr, List.append_nil]
    · intro o ho
      simp [other o ho]
    · intro s hs
      simp [seeding s hs]
  have rest : (seeds ++ others).filter late = others := by
    rw [List.filter_append, List.filter_eq_self.mpr other, List.filter_eq_nil_iff.mpr seeding, List.nil_append]
  have cut := filter_cut upward
  have length := (order.filter fun r => !late r).length_eq
  rw [early] at length
  have kept : excludeSeedRows rows seeds.length = (rows.insertionSort (·.arrivalNs ≤ ·.arrivalNs)).filter late := by
    rw [excludeSeedRows, sliceFrom, if_pos (Int.natCast_nonneg _), Int.toNat_natCast, ← length]
    nth_rewrite 2 [← cut]
    rw [List.drop_left]
  rw [kept, ← rest]
  exact order.filter late

section Report
variable {lower : Text → Text} {reqs seeds others : List Request} {recs rows : List Record}

theorem Record.Same.waiting {req : Request} {rec : Record} (h : rec.Same req) : rec.waiting = req.waitingNs := by
  rw [Record.waiting, Request.waitingNs, h.startNs, h.arrivalNs]

theorem Record.Same.response {req : Request} {rec : Record} (h : rec.Same req) : rec.response = req.responseNs := by
  rw [Record.response, Request.responseNs, h.finishNs, h.arrivalNs]

theorem same_split (same : List.Forall₂ (fun req rec => Record.Same req rec) reqs recs) (perm : reqs.Perm (seeds ++ others)) :
    ∃ first rest, recs.Perm (first ++ rest) ∧ List.Forall₂ (fun req rec => Record.Same req rec) seeds first ∧
      List.Forall₂ (fun req rec => Record.Same req rec) others rest := by
  obtain ⟨parts, all, order⟩ := List.perm_comp_forall₂ perm.symm same
  have front := List.forall₂_take seeds.length all
  have back := List.forall₂_drop seeds.length all
  rw [List.take_left] at front
  rw [List.drop_left] at back
  refine ⟨parts.take seeds.length, parts.drop seeds.length, ?_, front, back⟩
  rw [List.take_append_drop]
  exact order.symm

theorem same_map {β : Type} {f : Request → β} {g : Record → β} (h : ∀ req rec, Record.Same req rec → g rec = f req)
    (same : List.Forall₂ (fun req rec => Record.Same req rec) reqs recs) : recs.map g = reqs.map f := by
  induction same with
  | nil => rfl
  | cons first rest ih => rw [List.map_cons, List.map_cons, h _ _ first, ih]

theorem same_mem (same : List.Forall₂ (fun req rec => Record.Same req rec) reqs recs) {rec : Record} (mem : rec ∈ recs) :
    ∃ req ∈ reqs, rec.Same req := by
  induction same with
  | nil => cases mem
  | cons first rest ih =>
    rcases List.mem_cons.mp mem with rfl | mem
    · exact ⟨_, List.mem_cons_self, first⟩
    · obtain ⟨req, hreq, same⟩ := ih mem
      exact ⟨req, List.mem_cons_of_mem _ hreq, same⟩

theorem classes_sum (lower : Text → Text) (f : Record → Int) (named : ∀ r ∈ rows, r.filename.join.isSome = true) :
    ((rows.filter (·.class? lower = some .small)).map f).sum + ((rows.filter (·.class? lower = some .medium)).map f).sum +
      ((rows.filter (·.class? lower = some .large)).map f).sum = (rows.map f).sum := by
  induction rows with
  | nil => rfl
  | cons r rows ih =>
    obtain ⟨first, rest⟩ := List.forall_mem_cons.mp named
    have ih := ih rest
    obtain ⟨name, hname⟩ := Option.isSome_iff_exists.mp first
    have hclass : r.class? lower = some (sizeClass lower name r.bytes) := by rw [Record.class?, hname, Option.map_some]
    cases cls : sizeClass lower name r.bytes <;> simp [hclass, cls] <;> omega

theorem classes_length (lower : Text → Text) (named : ∀ r ∈ rows, r.filename.join.isSome = true) :
    (rows.filter (·.class? lower = some .small)).length + (rows.filter (·.class? lower = some .medium)).length +
      (rows.filter (·.class? lower = some .large)).length = rows.length := by
  have counted := classes_sum lower (fun _ => 1) named
  simp only [List.map_const', List.sum_replicate, nsmul_eq_mul, mul_one] at counted
  exact_mod_cast counted

theorem percentile_ranks {values values' : List Int} {p : Int} (perm : values.Perm values') (nonempty : values' ≠ [])
    (pos : 1 ≤ p) (le : p ≤ 100) : ∃ v, nearestRankPercentile (sorted values) p = some v ∧ NearestRank values' p v := by
  rw [sorted_congr perm]
  have length : (sorted values').length = values'.length := (sorted_perm values').length_eq
  have some' : sorted values' ≠ [] := by
    rw [← List.length_pos_iff, length]
    exact List.length_pos_iff.mpr nonempty
  obtain ⟨value, -, low, lt⟩ := nearestRankPercentile_rank some' pos le
  rw [length] at value low lt
  have inside : (rankIndex values'.length p).toNat < (sorted values').length := by omega
  have index := List.getElem?_eq_getElem inside
  rw [value, index]
  exact ⟨_, rfl, nearestRank_rank low index⟩

/-- A report of the requests: the ranks of their times, and counts and sums that leave none out. -/
structure Summarises (others : List Request) (m : RunMetrics) : Prop where
  n : m.n = others.length
  waiting : ∃ p50 p99, m.waitP50Ns = some p50 ∧ m.waitP99Ns = some p99 ∧
    NearestRank (others.map Request.waitingNs) 50 p50 ∧ NearestRank (others.map Request.waitingNs) 99 p99
  response : ∃ p50 p99, m.respP50Ns = some p50 ∧ m.respP99Ns = some p99 ∧
    NearestRank (others.map Request.responseNs) 50 p50 ∧ NearestRank (others.map Request.responseNs) 99 p99
  window : ∃ o ∈ others, ∃ o' ∈ others, m.windowNs = o.finishNs - o'.arrivalNs ∧
    ∀ x ∈ others, x.finishNs ≤ o.finishNs ∧ o'.arrivalNs ≤ x.arrivalNs
  counted : (m.byClass .small).n + (m.byClass .medium).n + (m.byClass .large).n = m.n
  forfeited : (m.byClass .small).forfeited + (m.byClass .medium).forfeited + (m.byClass .large).forfeited =
    (others.map fun o => (o.forfeitedBytes.toNat : Int)).sum

theorem window_ends (kept : rows.Perm recs) (same : List.Forall₂ (fun req rec => Record.Same req rec) others recs)
    (lasting : ∃ o ∈ others, o.arrivalNs < o.finishNs) : ∃ latest earliest : Int,
      (rows.map Record.finishNs).max? = some latest ∧ (rows.map Record.arrivalNs).min? = some earliest ∧
      earliest < latest ∧ ∃ o ∈ others, ∃ o' ∈ others, latest - earliest = o.finishNs - o'.arrivalNs ∧
        ∀ x ∈ others, x.finishNs ≤ o.finishNs ∧ o'.arrivalNs ≤ x.arrivalNs := by
  have finish : (rows.map Record.finishNs).Perm (others.map fun o => (o.finishNs : Int)) := by
    rw [← same_map (fun _ _ h => h.finishNs) same]
    exact kept.map _
  have arrival : (rows.map Record.arrivalNs).Perm (others.map fun o => (o.arrivalNs : Int)) := by
    rw [← same_map (fun _ _ h => h.arrivalNs) same]
    exact kept.map _
  obtain ⟨x, hx, lasts⟩ := lasting
  have finishing : ∀ o ∈ others, (o.finishNs : Int) ∈ rows.map Record.finishNs := fun o ho =>
    finish.mem_iff.mpr (List.mem_map.mpr ⟨o, ho, rfl⟩)
  have arriving : ∀ o ∈ others, (o.arrivalNs : Int) ∈ rows.map Record.arrivalNs := fun o ho =>
    arrival.mem_iff.mpr (List.mem_map.mpr ⟨o, ho, rfl⟩)
  obtain ⟨latest, hlatest⟩ := Option.isSome_iff_exists.mp (List.isSome_max?_of_mem (finishing x hx))
  obtain ⟨earliest, hearliest⟩ := Option.isSome_iff_exists.mp (List.isSome_min?_of_mem (arriving x hx))
  obtain ⟨last, high⟩ := List.max?_eq_some_iff.mp hlatest
  obtain ⟨start, low⟩ := List.min?_eq_some_iff.mp hearliest
  obtain ⟨o, ho, rfl⟩ := List.mem_map.mp (finish.mem_iff.mp last)
  obtain ⟨o', ho', rfl⟩ := List.mem_map.mp (arrival.mem_iff.mp start)
  refine ⟨_, _, hlatest, hearliest, ?_, o, ho, o', ho', rfl, fun y hy => ⟨?_, ?_⟩⟩
  · have above := high _ (finishing x hx)
    have below := low _ (arriving x hx)
    omega
  · exact_mod_cast high _ (finishing y hy)
  · exact_mod_cast low _ (arriving y hy)

/-- The report of a run whose seeding uploads arrived before all else is one of the other requests,
whatever the order of the rows: it neither counts a seeding nor leaves out a request. -/
theorem runMetrics_reports (lower : Text → Text) (counted : ∀ req ∈ reqs, Counted req)
    (readable : ∀ req ∈ reqs, ∃ name, req.filename = encode name ∧ Plain name) (perm : reqs.Perm (seeds ++ others))
    (first : ∀ s ∈ seeds, ∀ o ∈ others, s.arrivalNs < o.arrivalNs)
    (lasting : ∃ o ∈ others, o.arrivalNs < o.finishNs) :
    ∃ m, runMetrics lower (csvFile reqs) seeds.length = some m ∧ Summarises others m := by
  obtain ⟨recs, loaded, same⟩ := loadRows_readable counted readable
  obtain ⟨early, rest, order, sameEarly, sameRest⟩ := same_split same perm
  have before : ∀ s ∈ early, ∀ o ∈ rest, s.arrivalNs < o.arrivalNs := by
    intro s hs o ho
    obtain ⟨s', hs', sames⟩ := same_mem sameEarly hs
    obtain ⟨o', ho', sameo⟩ := same_mem sameRest ho
    rw [sames.arrivalNs, sameo.arrivalNs]
    exact_mod_cast first s' hs' o' ho'
  have kept := excludeSeedRows_perm order before
  rw [← sameEarly.length_eq] at kept
  generalize hrows : excludeSeedRows recs seeds.length = rows at kept
  have ⟨x, hx, _⟩ := lasting
  have nonempty : ∀ f : Request → Int, others.map f ≠ [] := fun f => List.ne_nil_of_mem (List.mem_map_of_mem hx)
  have waits : (rows.map Record.waiting).Perm (others.map Request.waitingNs) := by
    rw [← same_map (fun _ _ h => h.waiting) sameRest]
    exact kept.map _
  have responses : (rows.map Record.response).Perm (others.map Request.responseNs) := by
    rw [← same_map (fun _ _ h => h.response) sameRest]
    exact kept.map _
  have forfeits : (rows.map Record.forfeitedBytes).Perm (others.map fun o => (o.forfeitedBytes.toNat : Int)) := by
    rw [← same_map (fun _ _ h => h.forfeitedBytes) sameRest]
    exact kept.map _
  have named : ∀ r ∈ rows, r.filename.join.isSome = true := by
    intro r hr
    obtain ⟨req, -, same⟩ := same_mem sameRest (kept.mem_iff.mp hr)
    have filename := same.filename
    cases name : r.filename.join with
    | none =>
      rw [name] at filename
      cases filename
    | some name => rfl
  obtain ⟨latest, earliest, hlatest, hearliest, lasts, window⟩ := window_ends kept sameRest lasting
  obtain ⟨w50, hw50, rw50⟩ := percentile_ranks (p := 50) waits (nonempty _) (by decide) (by decide)
  obtain ⟨w99, hw99, rw99⟩ := percentile_ranks (p := 99) waits (nonempty _) (by decide) (by decide)
  obtain ⟨r50, hr50, rr50⟩ := percentile_ranks (p := 50) responses (nonempty _) (by decide) (by decide)
  obtain ⟨r99, hr99, rr99⟩ := percentile_ranks (p := 99) responses (nonempty _) (by decide) (by decide)
  have kinds : ∀ r ∈ rows, r.op.isSome = true := by
    intro r hr
    obtain ⟨req, -, same⟩ := same_mem sameRest (kept.mem_iff.mp hr)
    have op := same.op
    cases kind : r.op with
    | none =>
      rw [kind] at op
      cases op
    | some kind => rfl
  have whole : ¬ (latest - earliest = 0 ∨ rows.any (fun r => r.filename.join.isNone || r.op.isNone) = true) := by
    rintro (none | missing)
    · omega
    · obtain ⟨r, hr, lacks⟩ := List.any_eq_true.mp missing
      have name := named r hr
      have kind := kinds r hr
      rcases Bool.or_eq_true_iff.mp lacks with unnamed | unkind
      · rw [Option.isNone_iff_eq_none.mp unnamed] at name
        cases name
      · rw [Option.isNone_iff_eq_none.mp unkind] at kind
        cases kind
  refine ⟨reportOf lower rows (latest - earliest), ?_, ?_⟩
  · simp only [runMetrics, loaded, Option.bind_eq_bind, Option.bind_some, hrows, hlatest, hearliest, if_neg whole]
    rfl
  constructor
  · exact kept.length_eq.trans sameRest.length_eq.symm
  · exact ⟨w50, w99, hw50, hw99, rw50, rw99⟩
  · exact ⟨r50, r99, hr50, hr99, rr50, rr99⟩
  · exact window
  · exact classes_length lower named
  · exact (classes_sum lower Record.forfeitedBytes named).trans forfeits.sum_eq

theorem runMetrics_reports_single : ∃ m,
    runMetrics id (csvFile [{ sample (ascii "large.txt") with arrivalNs := 4, startNs := 6, finishNs := 9 },
      sample (ascii "small.txt")]) 1 = some m ∧ m.n = 1 ∧ m.waitP99Ns = some 2 := by
  have counted : ∀ req ∈ [{ sample (ascii "large.txt") with arrivalNs := 4, startNs := 6, finishNs := 9 },
      sample (ascii "small.txt")], Counted req := by
    rw [List.forall_mem_cons, List.forall_mem_singleton]
    exact ⟨⟨⟨ascii "GET large.txt", by decide, by decide⟩, by decide, by decide, by decide, by decide, by decide,
        by decide⟩,
      ⟨ascii "GET small.txt", by decide, by decide⟩, by decide, by decide, by decide, by decide, by decide, by decide⟩
  have readable : ∀ req ∈ [{ sample (ascii "large.txt") with arrivalNs := 4, startNs := 6, finishNs := 9 },
      sample (ascii "small.txt")], Readable req.filename := by
    rw [List.forall_mem_cons, List.forall_mem_singleton]
    exact ⟨readable_ascii (by decide) (by decide), readable_ascii (by decide) (by decide)⟩
  have perm : List.Perm [{ sample (ascii "large.txt") with arrivalNs := 4, startNs := 6, finishNs := 9 },
      sample (ascii "small.txt")] ([sample (ascii "small.txt")] ++
        [{ sample (ascii "large.txt") with arrivalNs := 4, startNs := 6, finishNs := 9 }]) := .swap _ _ _
  obtain ⟨m, value, report⟩ := runMetrics_reports id counted readable perm (by decide) (by decide)
  obtain ⟨p50, p99, -, hp99, -, rank⟩ := report.waiting
  have two := rank.mem
  rw [List.map_singleton, List.mem_singleton] at two
  rw [two] at hp99
  exact ⟨m, value, report.n, hp99⟩

end Report

end LinkScheduling
