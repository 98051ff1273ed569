import LinkScheduling.Configuration
import LinkScheduling.Fires
import LinkScheduling.Metrics
import LinkScheduling.Patterns

/-! The A14 lines in the log of the server, after `logging.h`, and `count_a14` of the scripts, which
finds them again. The writer prints the name as the client sent it; the reader takes a carriage
return in it for the end of the line, and matches no name with white space. -/

namespace LinkScheduling
open Effect Csv Patterns

def logA14Line (requestId : Nat) (filename : Bytes) (lineBytes quantum : UInt64) : Bytes :=
  cString (ascii "A14 request_id=" ++ decimal requestId ++ ascii " filename=" ++ filename ++
    ascii " line_bytes=" ++ decimal lineBytes.toNat ++ ascii " quantum=" ++ decimal quantum.toNat ++ [newline])

def decimalInt (n : Int) : Bytes := if n < 0 then minus :: decimal n.natAbs else decimal n.natAbs

def startupLine (args : Args) (listen : ServerConfig) : Bytes :=
  ascii "server: CLI parsed OK (sched=" ++ args.sched ++
  ascii ", quantum=" ++ (if args.hasQuantum then decimal args.quantum.toNat else ascii "n/a") ++
  ascii ", file=" ++ args.fileDir ++
  ascii ", p=" ++ decimalInt args.pLines ++
  ascii ", config=" ++ args.configPath ++
  ascii ", metrics-out=" ++ args.metricsOut ++
  ascii "). Listening on " ++ listen.ip ++ ascii ":" ++ decimal listen.port.toNat ++
  ascii " with " ++ decimalInt listen.serverThreads ++ ascii " worker thread(s)." ++ [newline]

def sendCallCount (l : List Event) : Nat := l.countP fun
  | .sent .. | .sendFailed .. => true
  | _ => false

def shutdownLine (s : Server) : Bytes :=
  ascii "server: shutting down. requests_served=" ++ decimal s.accounts.requestsServed ++
  ascii " bytes_served=" ++ decimal s.accounts.bytesServed.toNat ++
  ascii " send_calls=" ++ decimal (sendCallCount s.log) ++ [newline]

def terminateNote : Bytes :=
  ascii "terminate called after throwing an instance of " ++ inQuotes (ascii "std::bad_alloc") ++ [newline] ++
  ascii "  what():  std::bad_alloc" ++ [newline]

def closing (s : Server) : Bytes :=
  if s.crashed then terminateNote else if s.main = .finished then shutdownLine s else []

def serverLog (args : Args) (listen : ServerConfig) (s : Server) : Bytes :=
  startupLine args listen ++ ((a14Of s.log).flatMap fun (id, name, len, quantum) => logA14Line id name len quantum) ++
    closing s

def Args.serverConfig (args : Args) : Config := { fileDir := args.fileDir, sp := args.sliceParams }

def a14Re : List Item :=
  [.literal "A14 request_id=".toList, .group fun c => (digit c).isSome,
   .literal " filename=".toList, .group fun c => !isSpace c,
   .literal " line_bytes=".toList, .group fun c => (digit c).isSome,
   .literal " quantum=".toList, .group fun c => (digit c).isSome]

def foundA14 (cs : Text) : List (List Text) := (readLines cs).filterMap fun line => groups a14Re (strip line)

/-- A log that is no text is an error. -/
def a14Matches (file : Bytes) : Option (List (List Text)) := (decode file).map foundA14

def countA14Fires (file : Bytes) : Option Nat := (a14Matches file).map List.length

/-- `count_a14` of `metrics.py`, where a log may be missing. -/
def countA14 : Option Bytes → Option (Option Nat)
  | none => some none
  | some file => (countA14Fires file).map some

inductive Carries (f : Fire) : List Text → Prop
  | mk {i n l q : Text} : digits i 0 false = some f.requestId → encode n = f.filename →
      digits l 0 false = some f.lineBytes.toNat → digits q 0 false = some f.quantum.toNat → Carries f [i, n, l, q]

structure DecodesA14 (file : Bytes) (fires : List Fire) : Prop where
  count : countA14 (some file) = some (some fires.length)
  carries : ∃ ms, a14Matches file = some ms ∧ List.Forall₂ Carries fires ms

def Unspaced (name : Bytes) : Prop := ∀ c ∈ text name, isSpace c = false

def a14Text (i n l q : Text) : Text :=
  separated ' ' "A14 request_id=".toList "filename=".toList "line_bytes=".toList "quantum=".toList i n l q

def Numeric (s : Text) : Prop := s ≠ [] ∧ ∀ c ∈ s, ∃ d < 10, c = Char.ofNat (48 + d)

theorem digit_spec : ∀ d < 10, (digit (Char.ofNat (48 + d))).isSome = true ∧ Char.ofNat (48 + d) ≠ ' ' ∧
    Char.ofNat (48 + d) ≠ '\n' ∧ Char.ofNat (48 + d) ≠ '\r' ∧ isSpace (Char.ofNat (48 + d)) = false := by
  decide

namespace Numeric
variable {s : Text}

theorem digits (h : Numeric s) : ∀ c ∈ s, (digit c).isSome = true := by
  intro c hc
  obtain ⟨d, hd, rfl⟩ := h.2 c hc
  exact (digit_spec d hd).1

theorem unspaced (h : Numeric s) : ' ' ∉ s := by
  intro hc
  obtain ⟨d, hd, same⟩ := h.2 _ hc
  exact (digit_spec d hd).2.1 same.symm

theorem unbroken (h : Numeric s) : ∀ c ∈ s, c ≠ '\n' ∧ c ≠ '\r' := by
  intro c hc
  obtain ⟨d, hd, rfl⟩ := h.2 c hc
  exact ⟨(digit_spec d hd).2.2.1, (digit_spec d hd).2.2.2.1⟩

end Numeric

section Line
variable {i n l q : Text}

theorem groups_a14 (hi : Numeric i) (hl : Numeric l) (hq : Numeric q) (hn : ' ' ∉ n) :
    groups a14Re (a14Text i n l q) =
      if n ≠ [] ∧ n.all (fun c => !isSpace c) then some [i, n, l, q] else none := by
  have one : i ≠ [] ∧ i.all (fun c => (digit c).isSome) := ⟨hi.1, List.all_eq_true.mpr hi.digits⟩
  have three : l ≠ [] ∧ l.all (fun c => (digit c).isSome) := ⟨hl.1, List.all_eq_true.mpr hl.digits⟩
  exact groups_separated (by decide) (by decide) (by decide) hi.unspaced hn hl.unspaced one three hq.1 hq.digits
    "A14 request_id=".toList "filename=".toList "line_bytes=".toList "quantum=".toList

theorem a14Text_last (hq : Numeric q) : ∀ c, (a14Text i n l q).getLast? = some c → c ∈ q := by
  intro c hc
  rw [a14Text, separated_last _ _ _ _ _ _ _ _ hq.1] at hc
  exact List.mem_of_getLast? hc

theorem a14Text_break (hi : Numeric i) (hl : Numeric l) (hq : Numeric q) {c : Char} (hc : c = '\n' ∨ c = '\r')
    (h : c ∈ a14Text i n l q) : c ∈ n := by
  have none : ∀ {s : Text}, Numeric s → c ∉ s := fun hs hmem =>
    hc.elim (hs.unbroken c hmem).1 (hs.unbroken c hmem).2
  rcases mem_separated h with h | h | h | h | h
  · rcases hc with rfl | rfl <;> exact absurd h (by decide)
  · exact absurd h (none hi)
  · exact h
  · exact absurd h (none hl)
  · exact absurd h (none hq)

theorem foundA14_whole (hi : Numeric i) (hl : Numeric l) (hq : Numeric q) (hn : ' ' ∉ n) (whole : ∀ c ∈ n, c ≠ '\n' ∧ c ≠ '\r')
    (rest : Text) : foundA14 (a14Text i n l q ++ '\n' :: rest) =
      (if n ≠ [] ∧ n.all (fun c => !isSpace c) then [[i, n, l, q]] else []) ++ foundA14 rest := by
  have unbroken : ∀ c ∈ a14Text i n l q, c ≠ '\n' ∧ c ≠ '\r' := fun c hc =>
    ⟨fun h => (whole c (a14Text_break hi hl hq (.inl h) hc)).1 h, fun h => (whole c (a14Text_break hi hl hq (.inr h) hc)).2 h⟩
  have stripped : strip (a14Text i n l q ++ ['\n']) = a14Text i n l q := by
    refine strip_line (fun c hc => ?_) (fun c hc => ?_) (List.cons_ne_nil _ _)
    · cases hc
      decide
    · obtain ⟨d, hd, rfl⟩ := hq.2 c (a14Text_last hq c hc)
      exact (digit_spec d hd).2.2.2.2
  unfold foundA14
  rw [readLines_whole unbroken, List.filterMap_cons, stripped, groups_a14 hi hl hq hn]
  split <;> simp_all

theorem Numeric.count (h : Numeric i) : i.count ' ' = 0 := List.count_eq_zero_of_not_mem h.unspaced

theorem foundA14_broken (hi : Numeric i) (hl : Numeric l) (hq : Numeric q) (hn : ' ' ∉ n) (unbroken : '\n' ∉ n)
    (broken : '\r' ∈ n) (rest : Text) : foundA14 (a14Text i n l q ++ '\n' :: rest) = foundA14 rest := by
  have noFeed : '\n' ∉ a14Text i n l q := fun h => unbroken (a14Text_break hi hl hq (.inl rfl) h)
  have last : (a14Text i n l q).getLast? ≠ some '\r' := fun h =>
    (hq.unbroken '\r' (a14Text_last hq _ h)).2 rfl
  obtain ⟨n₁, n₂, rfl⟩ := List.append_of_mem broken
  have parts := List.mem_append.not.mp hn
  rw [not_or, List.mem_cons, not_or] at parts
  have first : n₁.count ' ' = 0 := List.count_eq_zero_of_not_mem parts.1
  have second : n₂.count ' ' = 0 := List.count_eq_zero_of_not_mem parts.2.2
  have four : (a14Re.map (Item.occurrences ' ')).sum = 4 := by decide
  have few : ∀ {s : Text}, s.count ' ' < 4 → ∀ l ∈ Lines.lines '\n' (s.map feed ++ ['\n']), groups a14Re (strip l) = none := by
    intro s hs
    apply groups_lines ' '
    rw [List.count_append, count_feed (by decide), four]
    exact hs
  unfold foundA14
  rw [readLines_line noFeed last, List.filterMap_append, a14Text, separated_split, List.map_append, List.map_cons,
    show feed '\r' = '\n' from rfl, List.append_assoc, List.cons_append, List.append_cons,
    Lines.lines_append_of_sep List.getLast?_concat, List.filterMap_append]
  rw [List.filterMap_eq_nil_iff.mpr (few ?_), List.filterMap_eq_nil_iff.mpr (few ?_)]
  · rfl
  · simp only [List.count_append, List.count_cons, hl.count, hq.count, second]
    decide
  · simp only [List.count_append, List.count_cons, hi.count, first]
    decide

theorem foundA14_line (hi : Numeric i) (hl : Numeric l) (hq : Numeric q) (hn : ' ' ∉ n) (unbroken : '\n' ∉ n)
    (hne : n ≠ []) (rest : Text) : foundA14 (a14Text i n l q ++ '\n' :: rest) =
      (if ∀ c ∈ n, isSpace c = false then [[i, n, l, q]] else []) ++ foundA14 rest := by
  by_cases broken : '\r' ∈ n
  · rw [foundA14_broken hi hl hq hn unbroken broken, if_neg fun all => ?_, List.nil_append]
    exact absurd (all _ broken) (by decide)
  · have whole : ∀ c ∈ n, c ≠ '\n' ∧ c ≠ '\r' := fun c hc => ⟨fun h => unbroken (h ▸ hc), fun h => broken (h ▸ hc)⟩
    rw [foundA14_whole hi hl hq hn whole]
    simp [hne]

end Line

theorem foundA14_first {u : Text} (unbroken : ∀ d ∈ u, d ≠ '\n' ∧ d ≠ '\r')
    (first : (strip (u ++ ['\n'])).head? ≠ some 'A') (rest : Text) :
    foundA14 (u ++ '\n' :: rest) = foundA14 rest := by
  unfold foundA14
  rw [readLines_whole unbroken, List.filterMap_cons]
  have head : groups a14Re (strip (u ++ ['\n'])) = none := by
    have front : a14Re = .literal ('A' :: "14 request_id=".toList) :: a14Re.tail := rfl
    rw [front, groups_other _ first]
  rw [head]

theorem foundA14_other {c : Char} {u : Text} (visible : isSpace c = false) (other : c ≠ 'A')
    (unbroken : ∀ d ∈ c :: u, d ≠ '\n' ∧ d ≠ '\r') (rest : Text) :
    foundA14 (c :: u ++ '\n' :: rest) = foundA14 rest := by
  apply foundA14_first unbroken
  rw [List.cons_append, strip_head visible]
  exact fun same => other (Option.some.inj same)

def OneLine (bs : Bytes) : Prop := ∃ cs, bs = encode cs ∧ ∀ c ∈ cs, c ≠ '\n' ∧ c ≠ '\r'

/-- What the operator chooses is printed on one line. -/
structure Legible (args : Args) (listen : ServerConfig) : Prop where
  sched : OneLine args.sched
  fileDir : OneLine args.fileDir
  configPath : OneLine args.configPath
  metricsOut : OneLine args.metricsOut
  ip : OneLine listen.ip

theorem OneLine.append {a b : Bytes} (ha : OneLine a) (hb : OneLine b) : OneLine (a ++ b) := by
  obtain ⟨cs, rfl, hcs⟩ := ha
  obtain ⟨ds, rfl, hds⟩ := hb
  exact ⟨cs ++ ds, (encode_append cs ds).symm, List.forall_mem_append.mpr ⟨hcs, hds⟩⟩

def lineByte (b : UInt8) : Bool := b.toNat < 128 && Char.ofNat b.toNat != '\n' && Char.ofNat b.toNat != '\r'

theorem oneLine_ascii {bs : Bytes} (h : bs.all lineByte = true) : OneLine bs := by
  have each : ∀ b ∈ bs, (b.toNat < 128 ∧ Char.ofNat b.toNat ≠ '\n') ∧ Char.ofNat b.toNat ≠ '\r' := by
    simpa [lineByte] using h
  refine ⟨chars bs, (encode_chars fun b hb => (each b hb).1.1).symm, fun c hc => ?_⟩
  obtain ⟨b, hb, rfl⟩ := List.mem_map.mp hc
  exact ⟨(each b hb).1.2, (each b hb).2⟩

theorem numeric_decimal (n : Nat) : Numeric (chars (decimal n)) := by
  obtain ⟨ds, hds, hne, digits, -⟩ := chars_decimal n
  rw [hds]
  refine ⟨by simpa using hne, fun c hc => ?_⟩
  obtain ⟨d, hd, rfl⟩ := List.mem_map.mp hc
  exact ⟨d, digits d hd, rfl⟩

theorem encode_decimal (n : Nat) : encode (chars (decimal n)) = decimal n :=
  encode_chars (plainByte_spec (plainByte_decimal n)).1

theorem oneLine_decimal (n : Nat) : OneLine (decimal n) :=
  ⟨_, (encode_decimal n).symm, (numeric_decimal n).unbroken⟩

theorem oneLine_decimalInt (n : Int) : OneLine (decimalInt n) := by
  unfold decimalInt
  split
  · exact .append (oneLine_ascii (show [minus].all lineByte = true by decide)) (oneLine_decimal _)
  · exact oneLine_decimal _

theorem foundA14_begins {bs : Bytes} {b : UInt8} {c : Char} (letter : encode [c] = [b]) (low : b.toNat < 128)
    (visible : isSpace c = false) (other : c ≠ 'A') (h : OneLine bs) (first : bs.head? = some b) :
    ∃ cs, bs ++ [newline] = encode cs ∧ ∀ rest, foundA14 (cs ++ rest) = foundA14 rest := by
  obtain ⟨cs, rfl, unbroken⟩ := h
  obtain ⟨t, ht⟩ := List.head?_eq_some_iff.mp first
  obtain ⟨before, d, after, rfl, none, hd, -⟩ := encode_cut (u := []) low ht
  obtain rfl : [] = before := encode_inj none
  have same : d = c := by
    have chars : [d] = [c] := encode_inj (by rw [letter, encode_cons, hd]; rfl)
    exact (List.cons.inj chars).1
  refine ⟨d :: after ++ ['\n'], ?_, fun rest => ?_⟩
  · rw [List.nil_append, encode_append]
    rfl
  · rw [List.append_assoc]
    exact foundA14_other (by rwa [same]) (by rwa [same]) unbroken rest

theorem foundA14_server {bs : Bytes} (h : OneLine bs) (first : bs.head? = some 115) :
    ∃ cs, bs ++ [newline] = encode cs ∧ ∀ rest, foundA14 (cs ++ rest) = foundA14 rest :=
  foundA14_begins (show encode ['s'] = [115] by decide) (by decide) (by decide) (by decide) h first

theorem startupLine_text {args : Args} {listen : ServerConfig} (h : Legible args listen) :
    ∃ cs, startupLine args listen = encode cs ∧ ∀ rest, foundA14 (cs ++ rest) = foundA14 rest := by
  have quantum : OneLine (if args.hasQuantum then decimal args.quantum.toNat else ascii "n/a") := by
    split
    · exact oneLine_decimal _
    · exact oneLine_ascii (by decide)
  have literal (t : String) (all : (ascii t).all lineByte = true) : OneLine (ascii t) := oneLine_ascii all
  have first : (ascii "server: CLI parsed OK (sched=").head? = some 115 := by decide
  have line := (literal "server: CLI parsed OK (sched=" (by decide)).append h.sched
  have line := (line.append (literal ", quantum=" (by decide))).append quantum
  have line := (line.append (literal ", file=" (by decide))).append h.fileDir
  have line := (line.append (literal ", p=" (by decide))).append (oneLine_decimalInt args.pLines)
  have line := (line.append (literal ", config=" (by decide))).append h.configPath
  have line := (line.append (literal ", metrics-out=" (by decide))).append h.metricsOut
  have line := (line.append (literal "). Listening on " (by decide))).append h.ip
  have line := (line.append (literal ":" (by decide))).append (oneLine_decimal listen.port.toNat)
  have line := (line.append (literal " with " (by decide))).append (oneLine_decimalInt listen.serverThreads)
  exact foundA14_server (line.append (literal " worker thread(s)." (by decide)))
    (by simp only [List.head?_append, first, Option.some_or])

theorem shutdownLine_text (s : Server) :
    ∃ cs, shutdownLine s = encode cs ∧ ∀ rest, foundA14 (cs ++ rest) = foundA14 rest := by
  have literal (t : String) (all : (ascii t).all lineByte = true) : OneLine (ascii t) := oneLine_ascii all
  have first : (ascii "server: shutting down. requests_served=").head? = some 115 := by decide
  have line := (literal "server: shutting down. requests_served=" (by decide)).append
    (oneLine_decimal s.accounts.requestsServed)
  have line := (line.append (literal " bytes_served=" (by decide))).append (oneLine_decimal s.accounts.bytesServed.toNat)
  exact foundA14_server ((line.append (literal " send_calls=" (by decide))).append (oneLine_decimal (sendCallCount s.log)))
    (by simp only [List.head?_append, first, Option.some_or])

theorem terminateNote_text : ∃ cs, terminateNote = encode cs ∧ foundA14 cs = [] := by
  have head : (ascii "terminate called after throwing an instance of ").head? = some 116 := by decide
  have plain : (ascii "terminate called after throwing an instance of ").all lineByte = true := by decide
  have thrown : (inQuotes (ascii "std::bad_alloc")).all lineByte = true := by decide
  obtain ⟨cs, hcs, skip⟩ := foundA14_begins (show encode ['t'] = [116] by decide) (by decide) (by decide) (by decide)
    ((oneLine_ascii plain).append (oneLine_ascii thrown)) (by rw [List.head?_append, head, Option.some_or])
  obtain ⟨line, hline⟩ : ∃ line : Text, line = [' ', ' ', 'w', 'h', 'a', 't', '(', ')', ':', ' ', ' ', 's', 't', 'd', ':',
    ':', 'b', 'a', 'd', '_', 'a', 'l', 'l', 'o', 'c'] := ⟨_, rfl⟩
  have what : ascii "  what():  std::bad_alloc" ++ [newline] = encode (line ++ ['\n']) := by
    rw [hline]
    decide
  have unbroken : ∀ d ∈ line, d ≠ '\n' ∧ d ≠ '\r' := by simp [hline]
  have first : (strip (line ++ ['\n'])).head? ≠ some 'A' := by
    rw [hline]
    decide
  refine ⟨cs ++ (line ++ ['\n']), by rw [terminateNote, List.append_assoc _ (ascii "  what():  std::bad_alloc"), hcs,
    what, ← encode_append], ?_⟩
  rw [skip, foundA14_first unbroken first]
  rfl

theorem closing_text (s : Server) : ∃ cs, closing s = encode cs ∧ foundA14 cs = [] := by
  unfold closing
  split
  · exact terminateNote_text
  · split
    · obtain ⟨cs, hcs, skip⟩ := shutdownLine_text s
      refine ⟨cs, hcs, ?_⟩
      have last := skip []
      rw [List.append_nil] at last
      exact last
    · exact ⟨[], rfl, rfl⟩

def Fire.groups (f : Fire) : List Text :=
  [chars (decimal f.requestId), text f.filename, chars (decimal f.lineBytes.toNat), chars (decimal f.quantum.toNat)]

def Fire.found (f : Fire) : Bool := f.logged && (text f.filename).all fun c => !isSpace c

theorem Fire.found_iff (f : Fire) : f.found = true ↔ f.logged = true ∧ Unspaced f.filename := by
  simp [Fire.found, Unspaced]

theorem Fire.carries {f : Fire} (utf8 : ∃ cs, f.filename = encode cs) : Carries f f.groups := by
  refine .mk (digits_decimal _) ?_ (digits_decimal _) (digits_decimal _)
  obtain ⟨cs, hcs⟩ := utf8
  rw [hcs, text, decode_encode]
  rfl

theorem mem_encode {b : UInt8} {c : Char} (h : String.utf8EncodeChar c = [b]) {cs : Text} (hc : c ∈ cs) :
    b ∈ encode cs := by
  refine List.mem_flatMap.mpr ⟨c, hc, ?_⟩
  rw [h]
  exact List.mem_singleton_self b

theorem cString_eq {bs : Bytes} (h : 0 ∉ bs) : cString bs = bs := by
  apply List.takeWhile_eq_self_iff.mpr
  intro b hb
  have other : b ≠ 0 := fun same => h (same ▸ hb)
  simpa using other

theorem logA14Line_text (id : Nat) {cs : Text} (len quantum : UInt64) (admissible : Admissible (encode cs)) :
    logA14Line id (encode cs) len quantum = encode (a14Text (chars (decimal id)) cs (chars (decimal len.toNat))
      (chars (decimal quantum.toNat)) ++ ['\n']) := by
  have digits : ∀ n : Nat, 0 ∉ decimal n := fun n h => absurd (decimal_isDigit h) (by decide)
  unfold logA14Line
  rw [cString_eq]
  · have start : ascii "A14 request_id=" = encode "A14 request_id=".toList := by decide
    have name : ascii " filename=" = String.utf8EncodeChar ' ' ++ encode "filename=".toList := by decide
    have length : ascii " line_bytes=" = String.utf8EncodeChar ' ' ++ encode "line_bytes=".toList := by decide
    have last : ascii " quantum=" = String.utf8EncodeChar ' ' ++ encode "quantum=".toList := by decide
    have line : encode ['\n'] = [newline] := by decide
    simp only [a14Text, separated, encode_append, encode_cons, encode_decimal, start, name, length, last, line]
    generalize encode "A14 request_id=".toList = t₀
    generalize encode "filename=".toList = t₁
    generalize encode "line_bytes=".toList = t₂
    generalize encode "quantum=".toList = t₃
    simp only [List.append_assoc]
  · simp only [List.mem_append, digits, admissible.terminated, or_false]
    decide

theorem entries_text {fs : List Fire} (admissible : ∀ f ∈ fs, Admissible f.filename)
    (utf8 : ∀ f ∈ fs, ∃ cs, f.filename = encode cs) : ∃ cs,
      ((entries fs).flatMap fun (id, name, len, quantum) => logA14Line id name len quantum) = encode cs ∧
        ∀ rest, foundA14 (cs ++ rest) = (fs.filter Fire.found).map Fire.groups ++ foundA14 rest := by
  induction fs with
  | nil => exact ⟨[], rfl, fun _ => rfl⟩
  | cons f fs ih =>
    obtain ⟨good, admissible⟩ := List.forall_mem_cons.mp admissible
    obtain ⟨⟨name, hname⟩, utf8⟩ := List.forall_mem_cons.mp utf8
    obtain ⟨cs, hcs, reads⟩ := ih admissible utf8
    by_cases logged : f.logged = true
    · rw [hname] at good
      have entry : entries (f :: fs) = f.entry :: entries fs := by
        rw [entries, List.filter_cons_of_pos logged, List.map_cons, ← entries]
      have line := logA14Line_text f.requestId f.lineBytes f.quantum good
      refine ⟨a14Text (chars (decimal f.requestId)) name (chars (decimal f.lineBytes.toNat))
        (chars (decimal f.quantum.toNat)) ++ ['\n'] ++ cs, ?_, fun rest => ?_⟩
      · rw [entry, List.flatMap_cons, hcs, Fire.entry, hname]
        simp only [line, ← encode_append]
      have unspaced : ' ' ∉ name := fun h => good.token.unspaced (mem_encode (by decide) h)
      have unbroken : '\n' ∉ name := fun h => good.unbroken (mem_encode (by decide) h)
      have hne : name ≠ [] := by
        rintro rfl
        exact good.token.ne_nil rfl
      have same : text f.filename = name := by rw [hname, text, decode_encode, Option.getD_some]
      rw [List.append_assoc, List.append_assoc, List.singleton_append,
        foundA14_line (numeric_decimal _) (numeric_decimal _) (numeric_decimal _) unspaced unbroken hne, reads]
      have visible : f.found = true ↔ ∀ c ∈ name, isSpace c = false := by
        rw [Fire.found_iff, Unspaced, same, and_iff_right logged]
      by_cases h : f.found = true
      · rw [List.filter_cons_of_pos h, List.map_cons, if_pos (visible.mp h), Fire.groups, same]
        rfl
      · rw [List.filter_cons_of_neg h, if_neg fun all => h (visible.mpr all), List.nil_append]
    · have skipped : entries (f :: fs) = entries fs := by
        rw [entries, List.filter_cons_of_neg logged, ← entries]
      have unfound : ¬ f.found = true := fun found => logged ((Fire.found_iff f).mp found).1
      exact ⟨cs, by rw [skipped, hcs], fun rest => by rw [reads, List.filter_cons_of_neg unfound]⟩

theorem a14Matches_serverLog {args : Args} {listen : ServerConfig} (legible : Legible args listen) {s : Server}
    {fs : List Fire} (log : a14Of s.log = entries fs) (admissible : ∀ f ∈ fs, Admissible f.filename)
    (utf8 : ∀ f ∈ fs, ∃ cs, f.filename = encode cs) :
    a14Matches (serverLog args listen s) = some ((fs.filter Fire.found).map Fire.groups) := by
  obtain ⟨before, hbefore, skip⟩ := startupLine_text legible
  obtain ⟨cs, hcs, reads⟩ := entries_text admissible utf8
  obtain ⟨after, hafter, none⟩ := closing_text s
  rw [a14Matches, serverLog, log, hbefore, hcs, hafter, ← encode_append, ← encode_append, decode_encode,
    Option.map_some, List.append_assoc, skip, reads, none, List.append_nil]

theorem decodes_iff {file : Bytes} {fs : List Fire} (utf8 : ∀ f ∈ fs, ∃ cs, f.filename = encode cs)
    (found : a14Matches file = some ((fs.filter Fire.found).map Fire.groups)) :
    DecodesA14 file fs ↔ ∀ f ∈ fs, f.logged = true ∧ Unspaced f.filename := by
  constructor
  · rintro ⟨count, -⟩ f hf
    have same : (fs.filter Fire.found).length = fs.length := by
      simpa [countA14, countA14Fires, found] using count
    exact (Fire.found_iff f).mp (List.length_filter_eq_length_iff.mp same f hf)
  · intro all
    have kept : fs.filter Fire.found = fs :=
      List.filter_eq_self.mpr fun f hf => (Fire.found_iff f).mpr (all f hf)
    rw [kept] at found
    refine ⟨by rw [countA14, countA14Fires, found, Option.map_some, Option.map_some, List.length_map], _, found, ?_⟩
    rw [List.forall₂_map_right_iff, List.forall₂_same]
    exact fun f hf => Fire.carries (utf8 f hf)

/-- In every run, the reader is right about the fires if and only if each of them gets as far as its
entry and none of their names has white space in it. -/
theorem run_a14_decodes_iff {args : Args} {listen : ServerConfig} (legible : Legible args listen) {os : Os}
    {threads : Nat} {as : List Act} {s : Server} (run : run args.serverConfig as (.start os threads) = some s)
    (utf8 : ∀ f ∈ runFires args.serverConfig as (.start os threads), ∃ cs, f.filename = encode cs) :
    DecodesA14 (serverLog args listen s) (runFires args.serverConfig as (.start os threads)) ↔
      ∀ f ∈ runFires args.serverConfig as (.start os threads), f.logged = true ∧ Unspaced f.filename := by
  have log : a14Of s.log = entries (runFires args.serverConfig as (.start os threads)) := by
    rw [run_a14 run]
    rfl
  have admissible : ∀ f ∈ runFires args.serverConfig as (.start os threads), Admissible f.filename :=
    runFires_admissible (.start os threads)
  exact decodes_iff utf8 (a14Matches_serverLog legible log admissible utf8)

/-- A client asks for the file `name`, which holds one line of four bytes. -/
def asker (name : Bytes) : Os :=
  { Os.start (Files.single (ascii "d/" ++ name) (ascii "abc" ++ [newline])) [] with peer := fun _ _ => getHeader name }

def rrArgs : Args := { sched := ascii "rr", haveSched := true, hasQuantum := true, quantum := 2, fileDir := ascii "d" }

def listenAddress : ServerConfig := { ip := ascii "127.0.0.1", port := 9100, serverThreads := 1, clientThreads := 8 }

theorem legible_rrArgs : Legible rrArgs listenAddress :=
  ⟨oneLine_ascii (by decide), oneLine_ascii (by decide), oneLine_ascii (by decide), oneLine_ascii (by decide),
    oneLine_ascii (by decide)⟩

def servedOnce : List Act :=
  [.accept, .count, .spawn, .admission 0, .admission 0, .admission 0, .admission 0, .admission 0, .work 0, .work 0]

theorem run_a14_decodes_iff_single : ∃ s, run rrArgs.serverConfig servedOnce (.start (asker (ascii "f")) 1) = some s ∧
    runFires rrArgs.serverConfig servedOnce (.start (asker (ascii "f")) 1) = [⟨1, ascii "f", 4, 2, true⟩] ∧
    DecodesA14 (serverLog rrArgs listenAddress s) (runFires rrArgs.serverConfig servedOnce (.start (asker (ascii "f")) 1)) := by
  have ran : (run rrArgs.serverConfig servedOnce (.start (asker (ascii "f")) 1)).isSome = true := by decide +kernel
  have fires : runFires rrArgs.serverConfig servedOnce (.start (asker (ascii "f")) 1) = [⟨1, ascii "f", 4, 2, true⟩] := by
    decide +kernel
  obtain ⟨s, hs⟩ := Option.isSome_iff_exists.mp ran
  have named : ascii "f" = encode ['f'] := by decide
  refine ⟨s, hs, fires, (run_a14_decodes_iff legible_rrArgs hs ?_).mpr ?_⟩
  · rw [fires]
    exact List.forall_mem_singleton.mpr ⟨['f'], named⟩
  · rw [fires]
    refine List.forall_mem_singleton.mpr ⟨rfl, ?_⟩
    rw [Unspaced, text, named, decode_encode]
    exact List.forall_mem_singleton.mpr (by decide)

theorem run_a14_undecoded : ∃ s, run rrArgs.serverConfig servedOnce (.start (asker [97, 9, 98]) 1) = some s ∧
    runFires rrArgs.serverConfig servedOnce (.start (asker [97, 9, 98]) 1) = [⟨1, [97, 9, 98], 4, 2, true⟩] ∧
    ¬ DecodesA14 (serverLog rrArgs listenAddress s)
      (runFires rrArgs.serverConfig servedOnce (.start (asker [97, 9, 98]) 1)) := by
  have ran : (run rrArgs.serverConfig servedOnce (.start (asker [97, 9, 98]) 1)).isSome = true := by decide +kernel
  have fires : runFires rrArgs.serverConfig servedOnce (.start (asker [97, 9, 98]) 1) =
      [⟨1, [97, 9, 98], 4, 2, true⟩] := by decide +kernel
  obtain ⟨s, hs⟩ := Option.isSome_iff_exists.mp ran
  have named : [97, 9, 98] = encode ['a', '\t', 'b'] := by decide
  have utf8 : ∀ f ∈ [(⟨1, [97, 9, 98], 4, 2, true⟩ : Fire)], ∃ cs, f.filename = encode cs :=
    List.forall_mem_singleton.mpr ⟨_, named⟩
  have log := run_a14 hs
  have admissible : ∀ f ∈ runFires rrArgs.serverConfig servedOnce (.start (asker [97, 9, 98]) 1),
    Admissible f.filename := runFires_admissible (.start _ 1)
  rw [fires] at log admissible
  refine ⟨s, hs, fires, fun decodes => ?_⟩
  rw [fires] at decodes
  have unspaced := ((decodes_iff utf8 (a14Matches_serverLog legible_rrArgs log admissible utf8)).mp decodes _
    (List.mem_singleton_self _)).2
  rw [Unspaced, text, named, decode_encode] at unspaced
  exact absurd (unspaced '\t' (by decide)) (by decide)

end LinkScheduling
