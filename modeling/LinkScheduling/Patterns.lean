import LinkScheduling.Csv
import LinkScheduling.Lines

/-! Text files line by line, and lines against patterns, as Python reads and matches them:
universal newlines, `str.strip`, and regular expressions that consist of literals and of groups
`(x+)` of one kind of characters, from `^` to `$`. A group takes what it can and gives back what
the rest needs. -/

namespace Patterns
open Csv Lines

/-- Universal newlines: a carriage return ends a line, together with the line feed behind it. -/
def translate : Text → Text
  | [] => []
  | [c] => [if c = '\r' then '\n' else c]
  | c :: d :: cs =>
    if c = '\r' ∧ d = '\n' then translate (d :: cs)
    else (if c = '\r' then '\n' else c) :: translate (d :: cs)

def readLines (cs : Text) : List Text := lines '\n' (translate cs)

def strip (s : Text) : Text := (s.dropWhile isSpace).rdropWhile isSpace

theorem strip_sublist (s : Text) : (strip s).Sublist s :=
  (List.rdropWhile_prefix isSpace _).sublist.trans (List.dropWhile_sublist isSpace)

theorem strip_line {s : Text} (first : ∀ c, s.head? = some c → isSpace c = false)
    (last : ∀ c, s.getLast? = some c → isSpace c = false) (hne : s ≠ []) : strip (s ++ ['\n']) = s := by
  obtain ⟨c, t, rfl⟩ := List.exists_cons_of_ne_nil hne
  have visible := first c rfl
  unfold strip
  rw [List.cons_append, List.dropWhile_cons_of_neg (by simp [visible]), ← List.cons_append,
    List.rdropWhile_concat_pos isSpace _ _ (by decide), List.rdropWhile_eq_self_iff]
  intro hl
  simp [last _ (List.getLast?_eq_getLast_of_ne_nil hl)]

theorem strip_head {c : Char} (visible : isSpace c = false) (t : Text) : (strip (c :: t)).head? = some c := by
  unfold strip
  rw [List.dropWhile_cons_of_neg (by simp [visible])]
  cases rest : List.rdropWhile isSpace (c :: t) with
  | nil =>
    have spaces := List.rdropWhile_eq_nil_iff.mp rest c List.mem_cons_self
    rw [visible] at spaces
    cases spaces
  | cons d u =>
    have front := List.rdropWhile_prefix isSpace (c :: t)
    rw [rest] at front
    rw [(List.cons_prefix_cons.mp front).1]
    rfl

/-- A line feed for a carriage return. -/
def feed (c : Char) : Char := if c = '\r' then '\n' else c

theorem translate_cons (c : Char) {cs : Text} (h : ¬ (c = '\r' ∧ cs.head? = some '\n')) :
    translate (c :: cs) = feed c :: translate cs := by
  cases cs with
  | nil => rfl
  | cons d cs =>
    rw [translate, if_neg fun both => h ⟨both.1, by rw [both.2]; rfl⟩]
    rfl

theorem translate_line {u : Text} (unbroken : '\n' ∉ u) (last : u.getLast? ≠ some '\r') (rest : Text) :
    translate (u ++ '\n' :: rest) = u.map feed ++ '\n' :: translate rest := by
  induction u with
  | nil => exact translate_cons '\n' fun both => absurd both.1 (by decide)
  | cons c u ih =>
    rw [List.mem_cons, not_or] at unbroken
    rw [List.cons_append, List.map_cons, List.cons_append]
    cases u with
    | nil =>
      have other : c ≠ '\r' := fun same => last (by rw [same]; rfl)
      rw [translate_cons c fun both => other both.1]
      exact congrArg (feed c :: ·) (translate_cons '\n' fun both => absurd both.1 (by decide))
    | cons d u =>
      have tail := ih unbroken.2 (by simpa using last)
      rw [translate_cons c ?_, tail]
      rintro ⟨-, same⟩
      have head : d = '\n' := by simpa using same
      exact unbroken.2 (head ▸ List.mem_cons_self)

theorem readLines_line {u : Text} (unbroken : '\n' ∉ u) (last : u.getLast? ≠ some '\r') (rest : Text) :
    readLines (u ++ '\n' :: rest) = lines '\n' (u.map feed ++ ['\n']) ++ readLines rest := by
  unfold readLines
  rw [translate_line unbroken last, List.append_cons, lines_append_of_sep (by simp)]

theorem lines_single {u : Text} (unbroken : '\n' ∉ u) : lines '\n' (u ++ ['\n']) = [u ++ ['\n']] := by
  induction u with
  | nil => rfl
  | cons c u ih =>
    rw [List.mem_cons, not_or] at unbroken
    rw [List.cons_append, lines, if_neg (Ne.symm unbroken.1), ih unbroken.2]

theorem readLines_whole {u : Text} (unbroken : ∀ c ∈ u, c ≠ '\n' ∧ c ≠ '\r') (rest : Text) :
    readLines (u ++ '\n' :: rest) = (u ++ ['\n']) :: readLines rest := by
  have noFeed : '\n' ∉ u := fun h => (unbroken _ h).1 rfl
  have same : u.map feed = u.map id := List.map_congr_left fun c hc => if_neg (unbroken c hc).2
  rw [readLines_line noFeed (fun h => (unbroken _ (List.mem_of_getLast? h)).2 rfl), same,
    List.map_id, lines_single noFeed]
  rfl

theorem count_feed {c : Char} (h : c ≠ '\n' ∧ c ≠ '\r') (s : Text) : (s.map feed).count c = s.count c := by
  induction s with
  | nil => rfl
  | cons d s ih =>
    have same : feed d = c ↔ d = c := by
      unfold feed
      split
      · rename_i hd
        rw [hd]
        exact ⟨fun e => absurd e.symm h.1, fun e => absurd e.symm h.2⟩
      · exact Iff.rfl
    rw [List.map_cons, List.count_cons, List.count_cons, ih]
    simp only [beq_iff_eq, same]

inductive Item
  | literal (t : Text)
  | group (p : Char → Bool)

/-- One or more characters with `p`, as many as leave a rest on which `next` succeeds. -/
def plus (p : Char → Bool) (next : Text → Option (List Text)) : Text → Option (Text × List Text)
  | [] => none
  | c :: cs =>
    if p c then
      ((plus p next cs).map fun (g, gs) => (c :: g, gs)).or ((next cs).map fun gs => ([c], gs))
    else none

/-- The groups of a match; `$` stands before a newline at the end, too. -/
def groups : List Item → Text → Option (List Text)
  | [], s => if s = [] ∨ s = ['\n'] then some [] else none
  | .literal t :: items, s => if t.isPrefixOf s then groups items (s.drop t.length) else none
  | .group p :: items, s => (plus p (groups items) s).map fun (g, gs) => g :: gs

section Groups
variable {p : Char → Bool} {next : Text → Option (List Text)} {items : List Item}

theorem groups_literal (t s : Text) (items : List Item) : groups (.literal t :: items) (t ++ s) = groups items s := by
  rw [groups, if_pos (by simp), List.drop_left]

theorem groups_other {c : Char} (t : Text) {s : Text} (h : s.head? ≠ some c) :
    groups (.literal (c :: t) :: items) s = none := by
  rw [groups, if_neg]
  intro front
  obtain ⟨v, rfl⟩ := List.isPrefixOf_iff_prefix.mp front
  exact h rfl

theorem plus_until {c : Char} (stop : p c = false) (only : ∀ s, s.head? ≠ some c → next s = none) {u : Text}
    (hu : c ∉ u) (v : Text) : plus p next (u ++ c :: v) =
      if u ≠ [] ∧ u.all p then (next (c :: v)).map fun gs => (u, gs) else none := by
  induction u with
  | nil => simp [plus, stop]
  | cons a u ih =>
    rw [List.mem_cons, not_or] at hu
    rw [List.cons_append, plus, ih hu.2]
    by_cases ha : p a = true
    · cases u with
      | nil => cases hn : next (c :: v) <;> simp [ha, hn]
      | cons b u =>
        have early : next (b :: u ++ c :: v) = none := by
          apply only
          intro same
          have head : b = c := by simpa using same
          exact hu.2 (head ▸ List.mem_cons_self)
        rw [early]
        by_cases all : (b :: u).all p = true
        · cases hn : next (c :: v) <;> simp_all
        · simp [ha, all]
    · simp [ha]

theorem groups_until {c : Char} (stop : p c = false) {t u : Text} (hu : c ∉ u) (v : Text) :
    groups (.group p :: .literal (c :: t) :: items) (u ++ c :: (t ++ v)) =
      if u ≠ [] ∧ u.all p then (groups items v).map (u :: ·) else none := by
  have literal : groups (.literal (c :: t) :: items) (c :: (t ++ v)) = groups items v := groups_literal (c :: t) v items
  rw [groups, plus_until stop (fun s hs => groups_other t hs) hu, literal]
  split
  · rw [Option.map_map]
    rfl
  · rfl

theorem groups_end {u : Text} (hne : u ≠ []) (all : ∀ c ∈ u, p c = true) : groups [.group p] u = some [u] := by
  have taken : plus p (groups []) u = some (u, []) := by
    induction u with
    | nil => exact absurd rfl hne
    | cons a u ih =>
      obtain ⟨ha, hu⟩ := List.forall_mem_cons.mp all
      rw [plus, if_pos ha]
      cases u with
      | nil => rfl
      | cons b u => rw [ih (List.cons_ne_nil b u) hu, Option.map_some, Option.some_or]
  rw [groups, taken]
  rfl

/-- Four fields with a text before each; a separator stands before all texts but the first. -/
def separated (c : Char) (t₀ t₁ t₂ t₃ i n l u : Text) : Text :=
  t₀ ++ (i ++ c :: (t₁ ++ (n ++ c :: (t₂ ++ (l ++ c :: (t₃ ++ u))))))

theorem groups_separated {c : Char} {p q r e : Char → Bool} (hp : p c = false) (hq : q c = false) (hr : r c = false)
    {i n l u : Text} (hi : c ∉ i) (hn : c ∉ n) (hl : c ∉ l) (pi : i ≠ [] ∧ i.all p) (rl : l ≠ [] ∧ l.all r)
    (hu : u ≠ []) (eu : ∀ c ∈ u, e c = true) (t₀ t₁ t₂ t₃ : Text) :
    groups [.literal t₀, .group p, .literal (c :: t₁), .group q, .literal (c :: t₂), .group r, .literal (c :: t₃),
        .group e] (separated c t₀ t₁ t₂ t₃ i n l u) =
      if n ≠ [] ∧ n.all q then some [i, n, l, u] else none := by
  unfold separated
  rw [groups_literal, groups_until hp hi, if_pos pi, groups_until hq hn]
  split
  · rw [groups_until hr hl, if_pos rl, groups_end hu eu]
    rfl
  · rfl

theorem separated_last (c : Char) (t₀ t₁ t₂ t₃ i n l : Text) {u : Text} (hu : u ≠ []) :
    (separated c t₀ t₁ t₂ t₃ i n l u).getLast? = u.getLast? := by
  have front : separated c t₀ t₁ t₂ t₃ i n l u =
      (t₀ ++ (i ++ c :: (t₁ ++ (n ++ c :: (t₂ ++ (l ++ c :: t₃)))))) ++ u := by
    simp only [separated, List.append_assoc, List.cons_append]
  rw [front, List.getLast?_append_of_ne_nil _ hu]

theorem mem_separated {c d : Char} {t₀ t₁ t₂ t₃ i n l u : Text} (h : d ∈ separated c t₀ t₁ t₂ t₃ i n l u) :
    d ∈ t₀ ++ c :: (t₁ ++ c :: (t₂ ++ c :: t₃)) ∨ d ∈ i ∨ d ∈ n ∨ d ∈ l ∨ d ∈ u := by
  simp only [separated, List.mem_append, List.mem_cons] at h ⊢
  tauto

theorem separated_split (c d : Char) (t₀ t₁ t₂ t₃ i n₁ n₂ l u : Text) :
    separated c t₀ t₁ t₂ t₃ i (n₁ ++ d :: n₂) l u =
      (t₀ ++ (i ++ c :: (t₁ ++ n₁))) ++ d :: (n₂ ++ c :: (t₂ ++ (l ++ c :: (t₃ ++ u)))) := by
  simp only [separated, List.append_assoc, List.cons_append]

def Item.occurrences (c : Char) : Item → Nat
  | .literal t => t.count c
  | .group _ => 0

theorem plus_suffix {s g : Text} {gs : List Text} (h : plus p next s = some (g, gs)) :
    ∃ v, v <:+ s ∧ next v = some gs := by
  induction s generalizing g with
  | nil => cases h
  | cons c s ih =>
    rw [plus] at h
    split at h
    · rcases Option.or_eq_some_iff.mp h with h | ⟨-, h⟩
      · obtain ⟨⟨g', gs'⟩, taken, same⟩ := Option.map_eq_some_iff.mp h
        cases same
        obtain ⟨v, suffix, hv⟩ := ih taken
        exact ⟨v, suffix.trans (List.suffix_cons c s), hv⟩
      · obtain ⟨gs', hv, same⟩ := Option.map_eq_some_iff.mp h
        cases same
        exact ⟨s, List.suffix_cons c s, hv⟩
    · cases h

theorem groups_count (c : Char) {s : Text} {gs : List Text} (h : groups items s = some gs) :
    (items.map (Item.occurrences c)).sum ≤ s.count c := by
  induction items generalizing s gs with
  | nil => exact Nat.zero_le _
  | cons item items ih =>
    rw [List.map_cons, List.sum_cons]
    cases item with
    | literal t =>
      rw [groups] at h
      split at h
      · rename_i front
        obtain ⟨v, rfl⟩ := List.isPrefixOf_iff_prefix.mp front
        rw [List.drop_left] at h
        have rest := ih h
        rw [List.count_append]
        exact Nat.add_le_add_left rest _
      · cases h
    | group p =>
      obtain ⟨⟨g, gs'⟩, taken, -⟩ := Option.map_eq_some_iff.mp h
      obtain ⟨v, suffix, hv⟩ := plus_suffix taken
      have rest := ih hv
      have fewer := suffix.sublist.count_le c
      simp only [Item.occurrences]
      omega

theorem groups_lines (c : Char) {s : Text} (few : s.count c < (items.map (Item.occurrences c)).sum) :
    ∀ l ∈ lines '\n' s, groups items (strip l) = none := by
  intro l hl
  cases matched : groups items (strip l) with
  | none => rfl
  | some gs =>
    have enough := groups_count c matched
    have part := List.sublist_flatten_of_mem hl
    rw [lines_flatten] at part
    have fewer := ((strip_sublist l).trans part).count_le c
    omega

end Groups

end Patterns
