import LinkScheduling.Grammar

/-! The response lines as a code: what `format_ok` and `format_err` write is what the client
reads, however it is cut into chunks, and nothing else is taken for a success. -/

namespace LinkScheduling
open Effect

/-- Of a stream the client reads a line that says `r`, and is left with `tail`. -/
def Decodes (fd : Int) (timeoutMs : Int) (stream : Bytes) (r : ParsedResponseLine) (tail : Bytes) : Prop :=
  ∀ os, Delivers fd timeoutMs stream os → ∃ hdr, (readHeaderLine fd timeoutMs os).value = .ok hdr ∧
    hdr.ok = true ∧ parseResponseLine hdr.line = r ∧
    hdr.leftover ++ (readHeaderLine fd timeoutMs os).state.arrived fd = tail

theorem decodes_line {line : Bytes} (unbroken : newline ∉ line) (short : line.length ≤ 8192) (fd : Int)
    (timeoutMs : Int) (tail : Bytes) :
    Decodes fd timeoutMs (line ++ newline :: tail) (parseResponseLine line) tail := by
  intro os h
  obtain ⟨hdr, hv, read, failed⟩ := h.ends
  rw [lineOf_line tail unbroken] at read failed
  rw [restOf_line tail unbroken] at read
  have ok : hdr.ok = true := by
    cases hok : hdr.ok with
    | true => rfl
    | false =>
      have long := failed hok (by simp)
      omega
  obtain ⟨-, same, left, -⟩ := read ok
  exact ⟨hdr, hv, ok, by rw [same], left⟩

/-- A line that reports a success. -/
inductive OkLine : Bytes → UInt64 → Prop
  | intro {a b c : Nat} {digits : Bytes} {n : Nat} : 0 < b → Numeral digits n → n < 2 ^ 64 →
      OkLine (spaces a ++ ascii "OK" ++ spaces b ++ digits ++ spaces c) (UInt64.ofNat n)

theorem OkLine.parsed {line : Bytes} {n : UInt64} (h : OkLine line n) :
    parseResponseLine line = { ok := true, n := n } := by
  obtain @⟨a, b, c, digits, n, pos, numeral, fits⟩ := h
  have verb : Token (ascii "OK") := ⟨by decide, by decide⟩
  have words := Words.pair_iff.mpr ⟨verb, numeral.token, a, b, c, pos, rfl⟩
  rw [parseResponseLine, splitWs_iff.mpr words]
  simp only [if_true, parseU64_iff.mpr ⟨n, fits, numeral, rfl⟩]

theorem parseResponseLine_cases (line : Bytes) :
    (∃ n, OkLine line n ∧ parseResponseLine line = { ok := true, n := n }) ∨
    (∃ reason, parseResponseLine line = { reason := reason }) ∨
    parseResponseLine line = { malformed := true } := by
  rw [parseResponseLine]
  split
  · exact .inr (.inr rfl)
  · rename_i op rest hwords
    split
    · rename_i verb
      subst verb
      split
      · rename_i count
        obtain ⟨-, -, a, b, c, pos, rfl⟩ := Words.pair_iff.mp (splitWs_iff.mp hwords)
        split
        · rename_i n hcount
          obtain ⟨n, fits, numeral, rfl⟩ := parseU64_iff.mp hcount
          exact .inl ⟨_, .intro pos numeral fits, rfl⟩
        · exact .inr (.inr rfl)
      · exact .inr (.inr rfl)
    · split
      · exact .inr (.inl ⟨_, rfl⟩)
      · exact .inr (.inr rfl)

theorem parseResponseLine_ok_iff (line : Bytes) (n : UInt64) :
    (parseResponseLine line).ok = true ∧ (parseResponseLine line).n = n ↔ OkLine line n := by
  constructor
  · rintro ⟨ok, rfl⟩
    rcases parseResponseLine_cases line with ⟨n, accepted, h⟩ | ⟨reason, h⟩ | h
    · rw [h]
      exact accepted
    · rw [h] at ok
      cases ok
    · rw [h] at ok
      cases ok
  · intro h
    rw [h.parsed]
    exact ⟨rfl, rfl⟩

theorem parseResponseLine_err (reason : Bytes) :
    parseResponseLine (ascii "ERR " ++ reason) = { reason := reason } := by
  have verb : ascii "ERR " ++ reason = ascii "ERR" ++ space :: reason := rfl
  rw [parseResponseLine, verb, splitWs_word (by decide) (by decide)]
  rfl

theorem length_decimal_le {n : Nat} (h : n < 2 ^ 64) : (decimal n).length ≤ 20 := by
  unfold decimal
  split
  · decide
  · rw [List.length_map, List.length_reverse, Nat.digits_length_le_iff (by decide)]
    exact h.trans (by decide)

theorem parseResponseLine_formatOk (n : UInt64) :
    parseResponseLine (ascii "OK " ++ decimal n.toNat) = { ok := true, n := n } := by
  have verb : ascii "OK " ++ decimal n.toNat = ascii "OK" ++ space :: decimal n.toNat := rfl
  have number : parseU64 (decimal n.toNat) = some n := by
    rw [parseU64_decimal n.toNat_lt, UInt64.ofNat_toNat]
  rw [parseResponseLine, verb, splitWs_word (by decide) (by decide),
    splitWs_last (decimal_ne_nil _) (space_not_mem_decimal _)]
  simp only [if_true, number]

theorem formatOk_decodes (fd : Int) (timeoutMs : Int) (n : UInt64) (tail : Bytes) :
    Decodes fd timeoutMs (formatOk n.toNat ++ tail) { ok := true, n := n } tail := by
  have unbroken : newline ∉ ascii "OK " ++ decimal n.toNat := by
    rw [List.mem_append]
    exact not_or.mpr ⟨by decide, newline_not_mem_decimal _⟩
  have short := length_decimal_le n.toNat_lt
  have verb : (ascii "OK ").length = 3 := rfl
  have reads := decodes_line unbroken (by rw [List.length_append]; omega) fd timeoutMs tail
  rw [parseResponseLine_formatOk] at reads
  simpa [formatOk] using reads

theorem formatErr_decodes (fd : Int) (timeoutMs : Int) {reason : Bytes} (unbroken : newline ∉ reason)
    (short : (ascii "ERR " ++ reason).length ≤ 8192) (tail : Bytes) :
    Decodes fd timeoutMs (formatErr reason ++ tail) { reason := reason } tail := by
  have unbroken : newline ∉ ascii "ERR " ++ reason := by
    rw [List.mem_append]
    exact not_or.mpr ⟨by decide, unbroken⟩
  have reads := decodes_line unbroken short fd timeoutMs tail
  rw [parseResponseLine_err] at reads
  simpa [formatErr] using reads

/-- Responses are read as they were written, and a success is read only where one was written. -/
theorem response_codec (fd : Int) (timeoutMs : Int) :
    (∀ (n : UInt64) (tail : Bytes), Decodes fd timeoutMs (formatOk n.toNat ++ tail) { ok := true, n := n } tail) ∧
    (∀ (reason tail : Bytes), newline ∉ reason → (ascii "ERR " ++ reason).length ≤ 8192 →
      Decodes fd timeoutMs (formatErr reason ++ tail) { reason := reason } tail) ∧
    (∀ (line : Bytes) (n : UInt64),
      (parseResponseLine line).ok = true ∧ (parseResponseLine line).n = n ↔ OkLine line n) ∧
    ∀ line : Bytes, ¬ ((parseResponseLine line).ok = true ∧ (parseResponseLine line).malformed = true) := by
  refine ⟨formatOk_decodes fd timeoutMs, fun reason tail unbroken short =>
    formatErr_decodes fd timeoutMs unbroken short tail, parseResponseLine_ok_iff, ?_⟩
  rintro line ⟨ok, malformed⟩
  rcases parseResponseLine_cases line with ⟨n, -, h⟩ | ⟨reason, h⟩ | h
  · rw [h] at malformed
    cases malformed
  · rw [h] at ok
    cases ok
  · rw [h] at ok
    cases ok

theorem response_codec_spaces : ∃ hdr,
    (readHeaderLine 7 10000 (delivering (formatErr (ascii "  busy  now ") ++ ascii "x") [])).value = .ok hdr ∧
    hdr.ok = true ∧ parseResponseLine hdr.line = { reason := ascii "  busy  now " } ∧
    hdr.leftover ++ (readHeaderLine 7 10000
      (delivering (formatErr (ascii "  busy  now ") ++ ascii "x") [])).state.arrived 7 = ascii "x" := by
  obtain ⟨hdr, -, clean, -⟩ := readHeaderLine_full 7 (show (10000 : Int) ≠ 0 by decide)
    (show newline ∈ formatErr (ascii "  busy  now ") ++ ascii "x" by decide) (by decide)
  exact (response_codec 7 10000).2.1 (ascii "  busy  now ") (ascii "x") (by decide) (by decide) _ ⟨rfl, clean⟩

end LinkScheduling
