import Mathlib

/-! The nearest-rank percentile of `scripts/common.py`, as `run_metrics` and `analysis.py` call
it: on sorted values, which are integers or floats that compare as a linear order does. -/

namespace LinkScheduling

section Sorted
variable {α : Type} [LinearOrder α] {values : List α} {k : Nat} {v : α}

theorem lt_countP_le (sorted : values.Pairwise (· ≤ ·)) (h : values[k]? = some v) :
    k < values.countP (· ≤ v) := by
  obtain ⟨hk, rfl⟩ := List.getElem?_eq_some_iff.mp h
  have first : ∀ u ∈ values.take (k + 1), decide (u ≤ values[k]) = true := by
    intro u hu
    obtain ⟨i, hi, rfl⟩ := List.mem_take_iff_getElem.mp hu
    rw [decide_eq_true_eq]
    rcases Nat.lt_or_ge i k with lt | ge
    · exact List.pairwise_iff_getElem.mp sorted i k (by omega) hk lt
    · have same : i = k := by omega
      subst same
      exact le_refl _
  have count := (List.take_sublist (k + 1) values).countP_le (p := fun u => decide (u ≤ values[k]))
  rw [List.countP_eq_length.mpr first, List.length_take] at count
  omega

theorem countP_le_of_lt (sorted : values.Pairwise (· ≤ ·)) (h : values[k]? = some v) {u : α} (hu : u < v) :
    values.countP (· ≤ u) ≤ k := by
  obtain ⟨hk, rfl⟩ := List.getElem?_eq_some_iff.mp h
  have rest : ∀ w ∈ values.drop k, ¬ decide (w ≤ u) = true := by
    intro w hw
    obtain ⟨i, hi, rfl⟩ := List.mem_drop_iff_getElem.mp hw
    rw [decide_eq_true_eq, not_le]
    refine lt_of_lt_of_le hu ?_
    rcases Nat.eq_zero_or_pos i with zero | pos
    · subst zero
      exact le_refl _
    · exact List.pairwise_iff_getElem.mp sorted k (k + i) hk (by omega) (by omega)
  calc values.countP (· ≤ u) = (values.take k ++ values.drop k).countP (· ≤ u) := by rw [List.take_append_drop]
    _ = (values.take k).countP (· ≤ u) := by rw [List.countP_append, List.countP_eq_zero.mpr rest, Nat.add_zero]
    _ ≤ (values.take k).length := List.countP_le_length
    _ ≤ k := List.length_take_le k values

theorem getElem?_mono (sorted : values.Pairwise (· ≤ ·)) {l : Nat} {w : α} (h : values[k]? = some v)
    (h' : values[l]? = some w) (le : k ≤ l) : v ≤ w := by
  obtain ⟨hk, rfl⟩ := List.getElem?_eq_some_iff.mp h
  obtain ⟨hl, rfl⟩ := List.getElem?_eq_some_iff.mp h'
  rcases Nat.lt_or_ge k l with lt | ge
  · exact List.pairwise_iff_getElem.mp sorted k l hk hl lt
  · have same : k = l := by omega
    subst same
    exact le_refl _

end Sorted

/-- The index before it is clamped; `//` of Python rounds down. -/
def rankIndex (n p : Int) : Int := -((-p * n).fdiv 100) - 1

theorem rankIndex_bounds (n p : Int) : 100 * rankIndex n p < p * n ∧ p * n ≤ 100 * (rankIndex n p + 1) := by
  rw [rankIndex, Int.fdiv_eq_ediv_of_nonneg _ (by norm_num), neg_mul]
  generalize p * n = m
  omega

theorem rankIndex_range {n p : Int} (hn : 0 < n) (pos : 1 ≤ p) (le : p ≤ 100) :
    0 ≤ rankIndex n p ∧ rankIndex n p ≤ n - 1 := by
  obtain ⟨low, high⟩ := rankIndex_bounds n p
  have least : 1 * n ≤ p * n := Int.mul_le_mul_of_nonneg_right pos (by omega)
  have most : p * n ≤ 100 * n := Int.mul_le_mul_of_nonneg_right le (by omega)
  omega

theorem rankIndex_mono {n p q : Int} (hn : 0 ≤ n) (le : p ≤ q) : rankIndex n p ≤ rankIndex n q := by
  obtain ⟨low, -⟩ := rankIndex_bounds n p
  obtain ⟨-, high⟩ := rankIndex_bounds n q
  have more : p * n ≤ q * n := Int.mul_le_mul_of_nonneg_right le hn
  omega

def nearestRankPercentile {α : Type} (sortedValues : List α) (p : Int) : Option α :=
  let n : Int := sortedValues.length
  if n = 0 then none
  else
    let idx := rankIndex n p
    let idx := max 0 (min idx (n - 1))
    sortedValues[idx.toNat]?

theorem nearestRankPercentile_rank {α : Type} {values : List α} {p : Int} (nonempty : values ≠ []) (pos : 1 ≤ p)
    (le : p ≤ 100) : nearestRankPercentile values p = values[(rankIndex values.length p).toNat]? ∧
      max 0 (min (rankIndex values.length p) (values.length - 1)) = rankIndex values.length p ∧
      0 ≤ rankIndex values.length p ∧ (rankIndex values.length p).toNat < values.length := by
  have hn : 0 < (values.length : Int) := by exact_mod_cast List.length_pos_iff.mpr nonempty
  obtain ⟨low, high⟩ := rankIndex_range hn pos le
  have clamped : max 0 (min (rankIndex values.length p) (values.length - 1)) = rankIndex values.length p := by
    rw [min_eq_left high, max_eq_right low]
  refine ⟨?_, clamped, low, by omega⟩
  simp only [nearestRankPercentile]
  rw [if_neg hn.ne', clamped]

section Percentile
variable {α : Type} [LinearOrder α]

def sorted (values : List α) : List α := values.insertionSort (· ≤ ·)

/-- At least `p` percent of the values are up to `v`, and no smaller value has so many. -/
structure NearestRank (values : List α) (p : Int) (v : α) : Prop where
  mem : v ∈ values
  enough : p * values.length ≤ 100 * values.countP (· ≤ v)
  least : ∀ u ∈ values, u < v → 100 * values.countP (· ≤ u) < p * values.length

theorem sorted_perm (values : List α) : (sorted values).Perm values := List.perm_insertionSort _ values

theorem sorted_pairwise (values : List α) : (sorted values).Pairwise (· ≤ ·) := List.pairwise_insertionSort _ values

theorem sorted_congr {values values' : List α} (h : values.Perm values') : sorted values = sorted values' :=
  List.Perm.eq_of_pairwise (fun _ _ _ _ => le_antisymm) (sorted_pairwise values) (sorted_pairwise values')
    ((sorted_perm values).trans (h.trans (sorted_perm values').symm))

theorem nearestRank_rank {values : List α} {p : Int} {v : α} (low : 0 ≤ rankIndex values.length p)
    (h : (sorted values)[(rankIndex values.length p).toNat]? = some v) : NearestRank values p v := by
  obtain ⟨below, above⟩ := rankIndex_bounds values.length p
  have count : ∀ u, (sorted values).countP (· ≤ u) = values.countP (· ≤ u) := fun u =>
    (sorted_perm values).countP_eq _
  refine ⟨?_, ?_, fun u _ lt => ?_⟩
  · exact (sorted_perm values).mem_iff.mp (List.mem_of_getElem? h)
  · have rank := lt_countP_le (sorted_pairwise values) h
    rw [count] at rank
    omega
  · have rank := countP_le_of_lt (sorted_pairwise values) h lt
    rw [count] at rank
    omega

/-- The percentile of the sorted values is their nearest rank. It is the same however the values
come, grows with `p`, and its index needs no clamp. -/
theorem nearestRankPercentile_sorted {values : List α} {p : Int} (nonempty : values ≠ []) (pos : 1 ≤ p)
    (le : p ≤ 100) : ∃ v, nearestRankPercentile (sorted values) p = some v ∧ NearestRank values p v ∧
      (∀ values', values.Perm values' → nearestRankPercentile (sorted values') p = some v) ∧
      (∀ q, p ≤ q → q ≤ 100 → ∃ w, nearestRankPercentile (sorted values) q = some w ∧ v ≤ w) ∧
      max 0 (min (rankIndex values.length p) (values.length - 1)) = rankIndex values.length p := by
  have length : (sorted values).length = values.length := (sorted_perm values).length_eq
  have nonempty' : sorted values ≠ [] := by
    rw [← List.length_pos_iff, length]
    exact List.length_pos_iff.mpr nonempty
  have ranked : ∀ q, 1 ≤ q → q ≤ 100 → ∃ w, nearestRankPercentile (sorted values) q = some w ∧
      (sorted values)[(rankIndex values.length q).toNat]? = some w := by
    intro q pos le
    obtain ⟨value, -, -, lt⟩ := nearestRankPercentile_rank nonempty' pos le
    rw [length] at value lt
    rw [value]
    exact ⟨_, List.getElem?_eq_getElem (by omega), List.getElem?_eq_getElem (by omega)⟩
  obtain ⟨-, clamped, low, -⟩ := nearestRankPercentile_rank nonempty pos le
  obtain ⟨v, value, index⟩ := ranked p pos le
  refine ⟨v, value, nearestRank_rank low index, fun values' perm => ?_, fun q more le => ?_, clamped⟩
  · rw [← sorted_congr perm]
    exact value
  · obtain ⟨w, value', index'⟩ := ranked q (by omega) le
    have mono := rankIndex_mono (n := values.length) (Int.natCast_nonneg _) more
    exact ⟨w, value', getElem?_mono (sorted_pairwise values) index index' (by omega)⟩

theorem nearestRankPercentile_sorted_three : ∃ v,
    nearestRankPercentile (sorted [(30 : Int), 10, 20]) 50 = some v ∧ v = 20 ∧ NearestRank [(30 : Int), 10, 20] 50 v := by
  obtain ⟨v, value, rank, -⟩ := @nearestRankPercentile_sorted Int _ [30, 10, 20] 50 (by decide) (by decide) (by decide)
  have twenty : nearestRankPercentile (sorted [(30 : Int), 10, 20]) 50 = some 20 := by decide
  rw [twenty] at value
  cases value
  exact ⟨20, twenty, rfl, rank⟩

end Percentile

end LinkScheduling
