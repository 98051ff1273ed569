import LinkScheduling.HeaderLine
import LinkScheduling.Server

/-! Request lines between client and server: the tokens of a line, decimal numbers, and what the
server makes of the bytes that a client sends for a name it does not check. -/

namespace LinkScheduling
open Effect

theorem splitToken_eq (s : Bytes) : splitToken s =
    ((s.dropWhile (· == space)).takeWhile (· != space), (s.dropWhile (· == space)).dropWhile (· != space)) :=
  List.span_eq_takeWhile_dropWhile ..

theorem splitToken_space (s : Bytes) : splitToken (space :: s) = splitToken s := by
  simp [splitToken_eq]

theorem splitToken_word {tok : Bytes} (hne : tok ≠ []) (h : space ∉ tok) (s : Bytes) :
    splitToken (tok ++ space :: s) = (tok, space :: s) := by
  obtain ⟨c, tok, rfl⟩ := List.exists_cons_of_ne_nil hne
  have head : c ≠ space := fun e => h (e ▸ List.mem_cons_self)
  have keep : ∀ x ∈ c :: tok, (x != space) = true := fun x hx => by
    simp only [bne_iff_ne, ne_eq]
    exact fun e => h (e ▸ hx)
  have start : ((c :: tok) ++ space :: s).dropWhile (· == space) = (c :: tok) ++ space :: s := by
    simp [head]
  rw [splitToken_eq, start, List.takeWhile_append_of_pos keep, List.dropWhile_append_of_pos keep]
  simp

theorem splitToken_last {tok : Bytes} (hne : tok ≠ []) (h : space ∉ tok) : splitToken tok = (tok, []) := by
  obtain ⟨c, tok, rfl⟩ := List.exists_cons_of_ne_nil hne
  have head : c ≠ space := fun e => h (e ▸ List.mem_cons_self)
  have keep : ∀ x ∈ c :: tok, (x != space) = true := fun x hx => by
    simp only [bne_iff_ne, ne_eq]
    exact fun e => h (e ▸ hx)
  have start : (c :: tok).dropWhile (· == space) = c :: tok := by simp [head]
  rw [splitToken_eq, start, List.takeWhile_eq_self_iff.mpr keep, List.dropWhile_eq_nil_iff.mpr keep]

theorem words_induction {P : Bytes → Prop} (nil : P []) (gap : ∀ s, P s → P (space :: s))
    (last : ∀ tok, tok ≠ [] → space ∉ tok → P tok)
    (word : ∀ tok s, tok ≠ [] → space ∉ tok → P s → P (tok ++ space :: s)) (s : Bytes) : P s := by
  induction hn : s.length using Nat.strong_induction_on generalizing s with
  | _ n ih =>
    cases s with
    | nil => exact nil
    | cons c s =>
      rw [List.length_cons] at hn
      by_cases hc : c = space
      · subst hc
        exact gap s (ih s.length (by omega) s rfl)
      · have split := List.takeWhile_append_dropWhile (p := (· != space)) (l := c :: s)
        have front : (c :: s).takeWhile (· != space) ≠ [] := by simp [hc]
        have unspaced : space ∉ (c :: s).takeWhile (· != space) := fun h => by
          simpa using List.mem_takeWhile_imp h
        cases hrest : (c :: s).dropWhile (· != space) with
        | nil =>
          rw [hrest, List.append_nil] at split
          exact split ▸ last _ front unspaced
        | cons d rest =>
          have hd : d = space := by
            have stopped := List.head?_dropWhile_not (· != space) (c :: s)
            rw [hrest] at stopped
            simpa using stopped
          have shorter : rest.length < n := by
            have := congrArg List.length split
            rw [hrest, List.length_append, List.length_cons, List.length_cons] at this
            omega
          rw [hrest, hd] at split
          exact split ▸ word _ rest front unspaced (ih rest.length shorter rest rfl)

theorem splitToken_rest {s : Bytes} (h : s ≠ []) :
    (splitToken s).2.length < s.length ∧ ((splitToken s).1 = [] → (splitToken s).2 = []) := by
  induction s using words_induction with
  | nil => exact absurd rfl h
  | gap s ih =>
    rw [splitToken_space]
    by_cases hs : s = []
    · subst hs
      simp [splitToken_eq]
    · obtain ⟨shorter, none⟩ := ih hs
      exact ⟨by rw [List.length_cons]; omega, none⟩
  | last tok hne hsp =>
    rw [splitToken_last hne hsp]
    exact ⟨List.length_pos_iff.mpr h, fun _ => rfl⟩
  | word tok s hne hsp =>
    rw [splitToken_word hne hsp]
    have := List.length_pos_iff.mpr hne
    exact ⟨by simp only [List.length_append]; omega, fun h => absurd h hne⟩

theorem splitWsFrom_fuel (n m : Nat) (s : Bytes) (hn : s.length ≤ n) (hm : s.length ≤ m) :
    splitWsFrom n s = splitWsFrom m s := by
  induction n generalizing m s with
  | zero =>
    obtain rfl := List.length_eq_zero_iff.mp (Nat.le_zero.mp hn)
    cases m <;> simp [splitWsFrom]
  | succ n ih =>
    by_cases hs : s = []
    · subst hs
      cases m <;> simp [splitWsFrom]
    · obtain ⟨shorter, -⟩ := splitToken_rest hs
      have pos := List.length_pos_iff.mpr hs
      obtain ⟨m, rfl⟩ := Nat.exists_eq_add_one_of_ne_zero (n := m) (by omega)
      have rest := ih m (splitToken s).2 (by omega) (by omega)
      simp only [splitWsFrom, if_neg hs, rest]

theorem splitWs_eq {s : Bytes} (h : s ≠ []) : splitWs s =
    if (splitToken s).1 = [] then splitWs (splitToken s).2 else (splitToken s).1 :: splitWs (splitToken s).2 := by
  have pos := List.length_pos_iff.mpr h
  obtain ⟨n, hn⟩ := Nat.exists_eq_add_one_of_ne_zero (n := s.length) (by omega)
  obtain ⟨shorter, -⟩ := splitToken_rest h
  rw [splitWs, hn]
  simp only [splitWsFrom, if_neg h]
  rw [splitWsFrom_fuel n (splitToken s).2.length (splitToken s).2 (by omega) (Nat.le_refl _)]
  rfl

@[simp] theorem splitWs_nil : splitWs [] = [] := rfl

@[simp] theorem splitWs_space (s : Bytes) : splitWs (space :: s) = splitWs s := by
  rw [splitWs_eq (List.cons_ne_nil _ _), splitToken_space]
  by_cases hs : s = []
  · subst hs
    simp [splitToken_eq]
  · rw [splitWs_eq hs]

theorem splitWs_word {tok : Bytes} (hne : tok ≠ []) (h : space ∉ tok) (s : Bytes) :
    splitWs (tok ++ space :: s) = tok :: splitWs s := by
  rw [splitWs_eq (by simp), splitToken_word hne h, if_neg hne, splitWs_space]

theorem splitWs_last {tok : Bytes} (hne : tok ≠ []) (h : space ∉ tok) : splitWs tok = [tok] := by
  rw [splitWs_eq hne, splitToken_last hne h, if_neg hne, splitWs_nil]

theorem splitWs_append (a b : Bytes) : splitWs (a ++ space :: b) = splitWs a ++ splitWs b := by
  induction a using words_induction with
  | nil => simp
  | gap s ih => simp [ih]
  | last tok hne h => rw [splitWs_word hne h, splitWs_last hne h, List.singleton_append]
  | word tok s hne h ih =>
    rw [List.append_assoc, List.cons_append, splitWs_word hne h, splitWs_word hne h, ih, List.cons_append]

theorem splitWs_mem {s tok : Bytes} (h : tok ∈ splitWs s) : tok ≠ [] ∧ space ∉ tok ∧ tok ⊆ s := by
  induction s using words_induction with
  | nil => cases h
  | gap s ih =>
    rw [splitWs_space] at h
    obtain ⟨hne, hsp, sub⟩ := ih h
    exact ⟨hne, hsp, List.subset_cons_of_subset _ sub⟩
  | last word hne hsp =>
    rw [splitWs_last hne hsp, List.mem_singleton] at h
    subst h
    exact ⟨hne, hsp, List.Subset.refl _⟩
  | word word s hne hsp ih =>
    rw [splitWs_word hne hsp, List.mem_cons] at h
    rcases h with rfl | h
    · exact ⟨hne, hsp, List.subset_append_left _ _⟩
    · obtain ⟨hne', hsp', sub⟩ := ih h
      exact ⟨hne', hsp', fun x hx => List.mem_append_right _ (List.mem_cons_of_mem _ (sub hx))⟩

theorem splitWs_single {s tok : Bytes} (h : splitWs s = [tok]) : tok = s ↔ space ∉ s := by
  refine ⟨fun same => ?_, fun hsp => ?_⟩
  · subst same
    exact (splitWs_mem (h ▸ List.mem_singleton_self _)).2.1
  · have hne : s ≠ [] := by
      rintro rfl
      cases h
    rw [splitWs_last hne hsp] at h
    exact (List.cons.inj h).1.symm

theorem decimal_digits (n : Nat) : ∃ ds : List Nat, decimal n = ds.map (fun d => (48 + d).toUInt8) ∧
    ds ≠ [] ∧ (∀ d ∈ ds, d < 10) ∧ ds.foldl (fun v d => 10 * v + d) 0 = n := by
  unfold decimal
  by_cases hn : n = 0
  · subst hn
    exact ⟨[0], rfl, by simp, by simp, rfl⟩
  · rw [if_neg hn]
    refine ⟨(Nat.digits 10 n).reverse, rfl, ?_, fun d hd => ?_, ?_⟩
    · simpa using Nat.digits_ne_nil_iff_ne_zero.mpr hn
    · exact Nat.digits_lt_base (by omega) (List.mem_reverse.mp hd)
    · have value := Nat.ofDigits_digits 10 n
      rw [Nat.ofDigits_eq_foldr] at value
      rw [List.foldl_reverse]
      simpa [Nat.add_comm] using value

theorem digit_toNat {d : Nat} (h : d < 10) : ((48 + d).toUInt8).toNat = 48 + d := by
  rw [Nat.toUInt8_eq, UInt8.toNat_ofNat']
  omega

theorem isDigit_digit {d : Nat} (h : d < 10) : isDigit ((48 + d).toUInt8) = true := by
  have value := digit_toNat h
  have low : (48 : UInt8).toNat = 48 := rfl
  have high : (57 : UInt8).toNat = 57 := rfl
  simp only [isDigit, Bool.and_eq_true, decide_eq_true_eq, UInt8.le_iff_toNat_le, value, low, high]
  omega

theorem decimal_isDigit {n : Nat} {c : UInt8} (h : c ∈ decimal n) : isDigit c = true := by
  obtain ⟨ds, hds, -, digits, -⟩ := decimal_digits n
  rw [hds] at h
  obtain ⟨d, hd, rfl⟩ := List.mem_map.mp h
  exact isDigit_digit (digits d hd)

theorem decimal_ne_nil (n : Nat) : decimal n ≠ [] := by
  obtain ⟨ds, hds, hne, -⟩ := decimal_digits n
  simpa [hds] using hne

theorem space_not_mem_decimal (n : Nat) : space ∉ decimal n := fun h => by
  have digit := decimal_isDigit h
  exact absurd digit (by decide)

theorem newline_not_mem_decimal (n : Nat) : newline ∉ decimal n := fun h => by
  have digit := decimal_isDigit h
  exact absurd digit (by decide)

theorem digitsValue_digits {ds : List Nat} (h : ∀ d ∈ ds, d < 10) :
    digitsValue (ds.map fun d => (48 + d).toUInt8) = ds.foldl (fun v d => 10 * v + d) 0 := by
  rw [digitsValue, List.foldl_map]
  refine List.foldl_ext _ _ _ fun v d hd => ?_
  rw [digit_toNat (h d hd), Nat.add_sub_cancel_left]

theorem parseU64_decimal {n : Nat} (h : n < 2 ^ 64) : parseU64 (decimal n) = some (UInt64.ofNat n) := by
  have all : (decimal n).all isDigit = true := List.all_eq_true.mpr fun _ => decimal_isDigit
  obtain ⟨ds, hds, -, digits, value⟩ := decimal_digits n
  have read : digitsValue (decimal n) = n := by rw [hds, digitsValue_digits digits, value]
  rw [parseU64, if_neg (decimal_ne_nil n), if_pos all, read, if_pos h]

theorem ascii_verb (x : Bytes) : ascii "GET " ++ x = ascii "GET" ++ space :: x ∧
    ascii "PUT " ++ x = ascii "PUT" ++ space :: x := ⟨rfl, rfl⟩

theorem parseRequestLine_get (x : Bytes) : parseRequestLine (ascii "GET " ++ x) =
    match splitWs x with
    | [filename] => { type := .get, filename := filename }
    | _ => { error := ascii "GET requires exactly one filename" } := by
  rw [(ascii_verb x).1, parseRequestLine, splitWs_word (by decide) (by decide)]
  rfl

theorem parseRequestLine_put (x : Bytes) : parseRequestLine (ascii "PUT " ++ x) =
    match splitWs x with
    | [filename, count] =>
      match parseU64 count with
      | some bytes => { type := .put, filename := filename, byteCount := bytes }
      | none => { error := ascii "missing or non-numeric byte count" }
    | _ => { error := ascii "PUT requires a filename and a byte count" } := by
  rw [(ascii_verb x).2, parseRequestLine, splitWs_word (by decide) (by decide)]
  rfl

/-- `basename_of`: what follows the last slash. -/
def basenameOf (path : Bytes) : Bytes := (path.reverse.takeWhile (· != 47)).reverse

def getHeader (name : Bytes) : Bytes := ascii "GET " ++ name ++ [newline]

def putHeader (name : Bytes) (size : UInt64) : Bytes :=
  ascii "PUT " ++ name ++ [space] ++ decimal size.toNat ++ [newline]

/-- Whatever the server reads of these bytes, it rejects the line or acts on what was asked, and
keeps the body. -/
def Faithful (fd : Int) (asked : ParsedRequestLine) (header body : Bytes) : Prop :=
  ∀ os, os.arrived fd = header ++ body → ∀ hdr,
    (readHeaderLine fd kHeaderTimeoutMs os).value = .ok hdr → hdr.ok = true →
    (parseRequestLine hdr.line).type = .malformed ∨ parseRequestLine hdr.line = asked ∧
      hdr.leftover ++ (readHeaderLine fd kHeaderTimeoutMs os).state.arrived fd = body

theorem faithful_iff (fd : Int) (asked : ParsedRequestLine) {header : Bytes} (mem : newline ∈ header)
    (body : Bytes) : Faithful fd asked header body ↔ 8703 < (lineOf header).length ∨
      (parseRequestLine (lineOf header)).type = .malformed ∨
      parseRequestLine (lineOf header) = asked ∧ restOf header = [] := by
  have line := lineOf_of_mem body mem
  have rest := restOf_of_mem body mem
  have mem' : newline ∈ header ++ body := List.mem_append_left _ mem
  constructor
  · intro h
    by_cases long : 8703 < (lineOf header).length
    · exact .inl long
    · obtain ⟨hdr, hv, clean, ok⟩ := readHeaderLine_full fd (show kHeaderTimeoutMs ≠ 0 by decide)
        mem' (by rw [line]; omega)
      obtain ⟨hdr', hv', reads⟩ := readHeaderLine_spec fd kHeaderTimeoutMs (delivering (header ++ body) [])
      rw [hv] at hv'
      cases hv'
      obtain ⟨-, hline, left, -⟩ := reads.read ok
      have arrived : (delivering (header ++ body) []).arrived fd = header ++ body := rfl
      rw [arrived, line] at hline
      rw [arrived, rest] at left
      have acts := h _ arrived hdr hv ok
      rw [hline, left] at acts
      exact .inr (acts.imp_right fun ⟨same, kept⟩ => ⟨same, List.append_left_eq_self.mp kept⟩)
  · rintro h os arrived hdr hv ok
    obtain ⟨hdr', hv', reads⟩ := readHeaderLine_spec fd kHeaderTimeoutMs os
    rw [hv] at hv'
    cases hv'
    obtain ⟨-, hline, left, short⟩ := reads.read ok
    rw [arrived, line] at hline
    rw [arrived, rest] at left
    rw [hline] at short ⊢
    rw [left]
    rcases h with long | malformed | ⟨same, kept⟩
    · omega
    · exact .inl malformed
    · exact .inr ⟨same, by rw [kept, List.nil_append]⟩

theorem lineOf_snoc (s : Bytes) : lineOf (s ++ [newline]) = lineOf s := by
  by_cases h : newline ∈ s
  · exact lineOf_of_mem _ h
  · rw [lineOf_line _ h, lineOf_eq_self h]

theorem restOf_snoc (s : Bytes) : restOf (s ++ [newline]) = [] ↔ newline ∉ s := by
  by_cases h : newline ∈ s
  · simp [restOf_of_mem _ h, h]
  · simp [restOf_line _ h, h]

theorem lineOf_getHeader (name : Bytes) : lineOf (getHeader name) = ascii "GET " ++ lineOf name := by
  rw [getHeader, lineOf_snoc, lineOf_append _ (by decide)]

theorem restOf_getHeader (name : Bytes) : restOf (getHeader name) = [] ↔ newline ∉ name := by
  rw [getHeader, restOf_snoc, List.mem_append]
  exact not_congr (or_iff_right (by decide))

theorem lineOf_putHeader (name : Bytes) (size : UInt64) : lineOf (putHeader name size) = ascii "PUT " ++
    if newline ∈ name then lineOf name else name ++ space :: decimal size.toNat := by
  rw [putHeader, lineOf_snoc, List.append_assoc, List.append_assoc, lineOf_append _ (by decide)]
  split
  · rw [lineOf_of_mem _ ‹_›]
  · rw [lineOf_append _ ‹_›, lineOf_append _ (by decide), lineOf_eq_self (newline_not_mem_decimal _)]
    rfl

theorem restOf_putHeader (name : Bytes) (size : UInt64) : restOf (putHeader name size) = [] ↔ newline ∉ name := by
  have clean := newline_not_mem_decimal size.toNat
  have verb : newline ∉ ascii "PUT " := by decide
  have gap : newline ∉ [space] := by decide
  rw [putHeader, restOf_snoc, List.mem_append, List.mem_append, List.mem_append]
  tauto

theorem getHeader_faithful_iff (fd : Int) (name body : Bytes) :
    Faithful fd { type := .get, filename := name } (getHeader name) body ↔
      8703 < (lineOf (getHeader name)).length ∨ (splitWs (lineOf name)).length ≠ 1 ∨
        (space ∉ name ∧ newline ∉ name) := by
  rw [faithful_iff fd _ (by simp [getHeader]), restOf_getHeader]
  refine or_congr_right ?_
  rw [lineOf_getHeader, parseRequestLine_get]
  rcases hs : splitWs (lineOf name) with _ | ⟨tok, _ | ⟨tok', rest⟩⟩
  · simp
  · by_cases hn : newline ∈ name
    · simp [hn]
    · rw [lineOf_eq_self hn] at hs
      have single := splitWs_single hs
      simp [hn, single]
  · simp

theorem putHeader_faithful_iff (fd : Int) (name body : Bytes) (size : UInt64) :
    Faithful fd { type := .put, filename := name, byteCount := size } (putHeader name size) body ↔
      8703 < (lineOf (putHeader name size)).length ∨
      (newline ∉ name ∧ ((splitWs name).length ≠ 1 ∨ space ∉ name)) ∨
      (newline ∈ name ∧ ∀ tok count, splitWs (lineOf name) = [tok, count] → parseU64 count = none) := by
  rw [faithful_iff fd _ (by simp [putHeader]), restOf_putHeader]
  refine or_congr_right ?_
  rw [lineOf_putHeader, parseRequestLine_put]
  by_cases hn : newline ∈ name
  · rw [if_pos hn]
    simp only [hn, not_true_eq_false, and_false, or_false, false_and, true_and, false_or]
    rcases hs : splitWs (lineOf name) with _ | ⟨tok, _ | ⟨count, _ | ⟨more, rest⟩⟩⟩
    · simp
    · simp
    · cases hc : parseU64 count <;> simp [hc]
    · simp
  · have number : parseU64 (decimal size.toNat) = some size := by
      rw [parseU64_decimal size.toNat_lt, UInt64.ofNat_toNat]
    have tokens : splitWs (name ++ space :: decimal size.toNat) = splitWs name ++ [decimal size.toNat] := by
      rw [splitWs_append, splitWs_last (decimal_ne_nil _) (space_not_mem_decimal _)]
    rw [if_neg hn, tokens]
    simp only [hn, not_false_eq_true, true_and, and_true, false_and, or_false]
    rcases hs : splitWs name with _ | ⟨tok, _ | ⟨tok', rest⟩⟩
    · simp
    · have single := splitWs_single hs
      simp [number, single]
    · cases rest <;> simp

/-- For which names the server acts on what the client has asked for, whatever it receives. -/
theorem requests_faithful_iff (fd : Int) :
    (∀ name body, Faithful fd { type := .get, filename := name } (getHeader name) body ↔
      8703 < (lineOf (getHeader name)).length ∨ (splitWs (lineOf name)).length ≠ 1 ∨
        (space ∉ name ∧ newline ∉ name)) ∧
    ∀ path size body, Faithful fd { type := .put, filename := basenameOf path, byteCount := size }
        (putHeader (basenameOf path) size) body ↔
      8703 < (lineOf (putHeader (basenameOf path) size)).length ∨
      (newline ∉ basenameOf path ∧ ((splitWs (basenameOf path)).length ≠ 1 ∨ space ∉ basenameOf path)) ∨
      (newline ∈ basenameOf path ∧
        ∀ tok count, splitWs (lineOf (basenameOf path)) = [tok, count] → parseU64 count = none) :=
  ⟨getHeader_faithful_iff fd, fun _ size body => putHeader_faithful_iff fd _ body size⟩

theorem getHeader_unfaithful :
    ¬ Faithful 7 { type := .get, filename := ascii " a" } (getHeader (ascii " a")) [] := by
  rw [faithful_iff 7 _ (by decide)]
  decide

end LinkScheduling
