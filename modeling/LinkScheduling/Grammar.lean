import LinkScheduling.Requests

/-! The lines that the parsers accept, as a grammar. A line is cut into words, whatever the bytes
of a word other than the space, and the parsers look at the list of words alone. -/

namespace LinkScheduling

def spaces (n : Nat) : Bytes := List.replicate n space

structure Token (tok : Bytes) : Prop where
  ne_nil : tok ≠ []
  unspaced : space ∉ tok

/-- A line of words, with spaces before, between and after them. -/
inductive Words : List Bytes → Bytes → Prop
  | nil (n : Nat) : Words [] (spaces n)
  | last {tok : Bytes} (n : Nat) : Token tok → Words [tok] (spaces n ++ tok)
  | word {tok s : Bytes} {toks : List Bytes} (n : Nat) : Token tok → Words toks s →
      Words (tok :: toks) (spaces n ++ tok ++ space :: s)

theorem splitWs_spaces (n : Nat) (s : Bytes) : splitWs (spaces n ++ s) = splitWs s := by
  induction n with
  | zero => rfl
  | succ n ih =>
    rw [spaces, List.replicate_succ, List.cons_append, splitWs_space]
    exact ih

theorem Words.gap {toks : List Bytes} {s : Bytes} (h : Words toks s) : Words toks (space :: s) := by
  cases h with
  | nil n => exact .nil (n + 1)
  | last n token => exact .last (n + 1) token
  | word n token rest => exact .word (n + 1) token rest

theorem splitWs_iff {s : Bytes} {toks : List Bytes} : splitWs s = toks ↔ Words toks s := by
  constructor
  · rintro rfl
    induction s using words_induction with
    | nil => exact .nil 0
    | gap s ih =>
      rw [splitWs_space]
      exact ih.gap
    | last tok hne hsp =>
      rw [splitWs_last hne hsp]
      exact .last 0 ⟨hne, hsp⟩
    | word tok s hne hsp ih =>
      rw [splitWs_word hne hsp]
      exact .word 0 ⟨hne, hsp⟩ ih
  · intro h
    induction h with
    | nil n => simpa using splitWs_spaces n []
    | last n token => rw [splitWs_spaces, splitWs_last token.ne_nil token.unspaced]
    | word n token _ ih =>
      rw [List.append_assoc, splitWs_spaces, splitWs_word token.ne_nil token.unspaced, ih]

theorem Words.nil_iff {s : Bytes} : Words [] s ↔ ∃ n, s = spaces n := by
  constructor
  · intro h
    cases h with
    | nil n => exact ⟨n, rfl⟩
  · rintro ⟨n, rfl⟩
    exact .nil n

theorem Words.single_iff {tok s : Bytes} :
    Words [tok] s ↔ Token tok ∧ ∃ a b, s = spaces a ++ tok ++ spaces b := by
  constructor
  · intro h
    cases h with
    | last n token => exact ⟨token, n, 0, (List.append_nil _).symm⟩
    | word n token rest =>
      obtain ⟨m, rfl⟩ := Words.nil_iff.mp rest
      exact ⟨token, n, m + 1, rfl⟩
  · rintro ⟨token, a, b, rfl⟩
    cases b with
    | zero =>
      rw [show spaces 0 = [] from rfl, List.append_nil]
      exact .last a token
    | succ b => exact .word a token (.nil b)

theorem Words.cons_iff {tok next s : Bytes} {toks : List Bytes} :
    Words (tok :: next :: toks) s ↔
      Token tok ∧ ∃ a t, s = spaces a ++ tok ++ space :: t ∧ Words (next :: toks) t := by
  constructor
  · intro h
    cases h with
    | word n token rest => exact ⟨token, n, _, rfl, rest⟩
  · rintro ⟨token, a, t, rfl, rest⟩
    exact .word a token rest

theorem space_spaces {n : Nat} (s : Bytes) : space :: (spaces n ++ s) = spaces (n + 1) ++ s := by
  rw [spaces, spaces, List.replicate_succ, List.cons_append]

theorem Words.pair_iff {u v s : Bytes} : Words [u, v] s ↔ Token u ∧ Token v ∧
    ∃ a b c, 0 < b ∧ s = spaces a ++ u ++ spaces b ++ v ++ spaces c := by
  rw [Words.cons_iff]
  constructor
  · rintro ⟨first, a, t, rfl, rest⟩
    obtain ⟨second, b, c, rfl⟩ := Words.single_iff.mp rest
    refine ⟨first, second, a, b + 1, c, Nat.succ_pos b, ?_⟩
    simp only [List.append_assoc, space_spaces]
  · rintro ⟨first, second, a, b, c, pos, rfl⟩
    obtain ⟨b, rfl⟩ := Nat.exists_eq_add_one_of_ne_zero (n := b) (by omega)
    refine ⟨first, a, _, ?_, Words.single_iff.mpr ⟨second, b, c, rfl⟩⟩
    simp only [List.append_assoc, space_spaces]

theorem Words.triple_iff {u v w s : Bytes} : Words [u, v, w] s ↔ Token u ∧ Token v ∧ Token w ∧
    ∃ a b c d, 0 < b ∧ 0 < c ∧ s = spaces a ++ u ++ spaces b ++ v ++ spaces c ++ w ++ spaces d := by
  rw [Words.cons_iff]
  constructor
  · rintro ⟨first, a, t, rfl, rest⟩
    obtain ⟨second, third, b, c, d, pos, rfl⟩ := Words.pair_iff.mp rest
    refine ⟨first, second, third, a, b + 1, c, d, Nat.succ_pos b, pos, ?_⟩
    simp only [List.append_assoc, space_spaces]
  · rintro ⟨first, second, third, a, b, c, d, pos, pos', rfl⟩
    obtain ⟨b, rfl⟩ := Nat.exists_eq_add_one_of_ne_zero (n := b) (by omega)
    refine ⟨first, a, _, ?_, Words.pair_iff.mpr ⟨second, third, b, c, d, pos', rfl⟩⟩
    simp only [List.append_assoc, space_spaces]

inductive Numeral : Bytes → Nat → Prop
  | digit {d : Nat} : d < 10 → Numeral [(48 + d).toUInt8] d
  | snoc {tok : Bytes} {n d : Nat} : Numeral tok n → d < 10 →
      Numeral (tok ++ [(48 + d).toUInt8]) (10 * n + d)

theorem isDigit_iff {c : UInt8} : isDigit c = true ↔ ∃ d < 10, c = (48 + d).toUInt8 := by
  constructor
  · intro h
    have low : (48 : UInt8).toNat = 48 := rfl
    have high : (57 : UInt8).toNat = 57 := rfl
    simp only [isDigit, Bool.and_eq_true, decide_eq_true_eq, UInt8.le_iff_toNat_le, low, high] at h
    refine ⟨c.toNat - 48, by omega, UInt8.toNat_inj.mp ?_⟩
    rw [digit_toNat (by omega)]
    omega
  · rintro ⟨d, hd, rfl⟩
    exact isDigit_digit hd

theorem Numeral.isDigit {tok : Bytes} {n : Nat} (h : Numeral tok n) : ∀ c ∈ tok, isDigit c = true := by
  induction h with
  | digit hd =>
    intro c hc
    rw [List.mem_singleton.mp hc]
    exact isDigit_digit hd
  | snoc _ hd ih =>
    intro c hc
    rcases List.mem_append.mp hc with hc | hc
    · exact ih c hc
    · rw [List.mem_singleton.mp hc]
      exact isDigit_digit hd

theorem Numeral.ne_nil {tok : Bytes} {n : Nat} (h : Numeral tok n) : tok ≠ [] := by
  cases h <;> simp

theorem digitsValue_snoc (tok : Bytes) (c : UInt8) :
    digitsValue (tok ++ [c]) = 10 * digitsValue tok + (c.toNat - 48) := by
  rw [digitsValue, List.foldl_append]
  rfl

theorem Numeral.value {tok : Bytes} {n : Nat} (h : Numeral tok n) : digitsValue tok = n := by
  induction h with
  | @digit d hd =>
    have value := digitsValue_snoc [] (48 + d).toUInt8
    rw [List.nil_append, digit_toNat hd] at value
    rw [value]
    change 10 * 0 + _ = d
    omega
  | snoc _ hd ih => rw [digitsValue_snoc, ih, digit_toNat hd, Nat.add_sub_cancel_left]

theorem numeral_digitsValue {tok : Bytes} (hne : tok ≠ []) (h : ∀ c ∈ tok, isDigit c = true) :
    Numeral tok (digitsValue tok) := by
  induction tok using List.reverseRecOn with
  | nil => exact absurd rfl hne
  | append_singleton tok c ih =>
    obtain ⟨d, hd, rfl⟩ := isDigit_iff.mp (h c (by simp))
    by_cases first : tok = []
    · subst first
      have value := (Numeral.digit hd).value
      rw [List.nil_append, value]
      exact .digit hd
    · rw [digitsValue_snoc, digit_toNat hd, Nat.add_sub_cancel_left]
      exact .snoc (ih first fun c hc => h c (List.mem_append_left _ hc)) hd

theorem Numeral.token {tok : Bytes} {n : Nat} (h : Numeral tok n) : Token tok :=
  ⟨h.ne_nil, fun mem => absurd (h.isDigit space mem) (by decide)⟩

theorem parseU64_iff {tok : Bytes} {v : UInt64} :
    parseU64 tok = some v ↔ ∃ n < 2 ^ 64, Numeral tok n ∧ v = UInt64.ofNat n := by
  constructor
  · intro h
    unfold parseU64 at h
    split at h
    · cases h
    · rename_i hne
      split at h
      · rename_i digits
        split at h
        · rename_i fits
          cases h
          exact ⟨_, fits, numeral_digitsValue hne (List.all_eq_true.mp digits), rfl⟩
        · cases h
      · cases h
  · rintro ⟨n, fits, numeral, rfl⟩
    rw [parseU64, if_neg numeral.ne_nil, if_pos (List.all_eq_true.mpr numeral.isDigit), numeral.value,
      if_pos fits]

inductive RequestLine : Bytes → ParsedRequestLine → Prop
  | get {a b c : Nat} {tok : Bytes} : 0 < b → Token tok →
      RequestLine (spaces a ++ ascii "GET" ++ spaces b ++ tok ++ spaces c) { type := .get, filename := tok }
  | put {a b c d : Nat} {tok digits : Bytes} {n : Nat} : 0 < b → 0 < c → Token tok → Numeral digits n →
      n < 2 ^ 64 → RequestLine
        (spaces a ++ ascii "PUT" ++ spaces b ++ tok ++ spaces c ++ digits ++ spaces d)
        { type := .put, filename := tok, byteCount := UInt64.ofNat n }
  | health {a b : Nat} : RequestLine (spaces a ++ ascii "HEALTH" ++ spaces b) { type := .health }

theorem RequestLine.parsed {line : Bytes} {r : ParsedRequestLine} (h : RequestLine line r) :
    parseRequestLine line = r := by
  cases h with
  | @get a b c tok pos token =>
    have verb : Token (ascii "GET") := ⟨by decide, by decide⟩
    have words := Words.pair_iff.mpr ⟨verb, token, a, b, c, pos, rfl⟩
    rw [parseRequestLine, splitWs_iff.mpr words]
    rfl
  | @put a b c d tok digits n pos pos' token numeral fits =>
    have verb : Token (ascii "PUT") := ⟨by decide, by decide⟩
    have words := Words.triple_iff.mpr ⟨verb, token, numeral.token, a, b, c, d, pos, pos', rfl⟩
    rw [parseRequestLine, splitWs_iff.mpr words]
    simp only [parseU64_iff.mpr ⟨n, fits, numeral, rfl⟩]
    rfl
  | @health a b =>
    have verb : Token (ascii "HEALTH") := ⟨by decide, by decide⟩
    have words := Words.single_iff.mpr ⟨verb, a, b, rfl⟩
    rw [parseRequestLine, splitWs_iff.mpr words]
    rfl

theorem parseRequestLine_cases (line : Bytes) : RequestLine line (parseRequestLine line) ∨
    (parseRequestLine line).type = .malformed ∧ (parseRequestLine line).error ≠ [] := by
  rw [parseRequestLine]
  split
  · exact .inr ⟨rfl, by decide⟩
  · rename_i op rest hwords
    have words := splitWs_iff.mp hwords
    split
    · rename_i verb
      subst verb
      split
      · rename_i filename
        obtain ⟨-, token, a, b, c, pos, rfl⟩ := Words.pair_iff.mp words
        exact .inl (.get pos token)
      · exact .inr ⟨rfl, by decide⟩
    · split
      · rename_i verb
        subst verb
        split
        · rename_i filename count
          obtain ⟨-, token, -, a, b, c, d, pos, pos', rfl⟩ := Words.triple_iff.mp words
          split
          · rename_i bytes hcount
            obtain ⟨n, fits, numeral, rfl⟩ := parseU64_iff.mp hcount
            exact .inl (.put pos pos' token numeral fits)
          · exact .inr ⟨rfl, by decide⟩
        · exact .inr ⟨rfl, by decide⟩
      · split
        · rename_i verb
          subst verb
          split
          · obtain ⟨-, a, b, rfl⟩ := Words.single_iff.mp words
            exact .inl .health
          · exact .inr ⟨rfl, by decide⟩
        · exact .inr ⟨rfl, by decide⟩

theorem RequestLine.accepted {line : Bytes} {r : ParsedRequestLine} (h : RequestLine line r) :
    r.type ≠ .malformed := by
  cases h <;> simp

/-- `parse_request_line` accepts the request lines and no other line, and says what they say. -/
theorem parseRequestLine_grammar (line : Bytes) :
    (∀ r, RequestLine line r → parseRequestLine line = r) ∧
    ((parseRequestLine line).type ≠ .malformed ↔ ∃ r, RequestLine line r) ∧
    ((∀ r, ¬ RequestLine line r) →
      (parseRequestLine line).type = .malformed ∧ (parseRequestLine line).error ≠ []) := by
  refine ⟨fun r h => h.parsed, ?_, fun none => ?_⟩
  · constructor
    · intro accepted
      rcases parseRequestLine_cases line with h | h
      · exact ⟨_, h⟩
      · exact absurd h.1 accepted
    · rintro ⟨r, h⟩
      rw [h.parsed]
      exact h.accepted
  · rcases parseRequestLine_cases line with h | h
    · exact absurd h (none _)
    · exact h

theorem parseRequestLine_grammar_put :
    parseRequestLine (spaces 1 ++ ascii "PUT" ++ spaces 2 ++ [9, 0] ++ spaces 1 ++ [52, 50] ++ spaces 0) =
      { type := .put, filename := [9, 0], byteCount := 42 } :=
  (parseRequestLine_grammar _).1 _ (.put (by decide) (by decide) ⟨by decide, by decide⟩
    (.snoc (.digit (by decide : 4 < 10)) (by decide : 2 < 10)) (by decide))

end LinkScheduling
