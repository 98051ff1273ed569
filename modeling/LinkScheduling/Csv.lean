import Mathlib

/-! Text files of comma-separated values as Python reads them: UTF-8, the lines of a file opened
with `newline=''`, and `csv.reader` in its default dialect, one character at a time, after the
state machine of its C code. Its fields hold at most `fieldLimit` characters. -/

namespace Csv

def encode (cs : List Char) : List UInt8 := cs.flatMap String.utf8EncodeChar

/-- Strict decoding: bytes that encode no text are an error. -/
def decode (bs : List UInt8) : Option (List Char) := bs.toByteArray.utf8Decode?.map Array.toList

@[simp] theorem encode_nil : encode [] = [] := rfl

@[simp] theorem encode_cons (c : Char) (cs : List Char) :
    encode (c :: cs) = String.utf8EncodeChar c ++ encode cs := rfl

@[simp] theorem encode_append (a b : List Char) : encode (a ++ b) = encode a ++ encode b :=
  List.flatMap_append

theorem utf8Encode_eq (cs : List Char) : cs.utf8Encode = (encode cs).toByteArray := rfl

theorem decode_encode (cs : List Char) : decode (encode cs) = some cs := by
  unfold decode
  rw [← utf8Encode_eq, List.utf8Decode?_utf8Encode]
  simp

theorem decode_eq_some_iff {bs : List UInt8} {cs : List Char} : decode bs = some cs ↔ bs = encode cs := by
  constructor
  · intro h
    obtain ⟨a, ha, rfl⟩ := Option.map_eq_some_iff.mp h
    have valid : bs.toByteArray.utf8Decode?.isSome = true := by rw [ha]; rfl
    have back := ByteArray.utf8Encode_get_utf8Decode? (h := valid)
    simp only [ha, Option.get_some] at back
    rw [utf8Encode_eq] at back
    have lists := congrArg (fun b : ByteArray => b.data.toList) back
    simpa using lists.symm
  · rintro rfl
    exact decode_encode cs

theorem encode_inj {a b : List Char} (h : encode a = encode b) : a = b :=
  Option.some.inj ((decode_encode a).symm.trans (h ▸ decode_encode b))

theorem utf8EncodeChar_cases (c : Char) : (∃ b : UInt8, String.utf8EncodeChar c = [b]) ∨
    ∀ b ∈ String.utf8EncodeChar c, 128 ≤ b.toNat := by
  unfold String.utf8EncodeChar
  simp only
  split
  · exact .inl ⟨_, rfl⟩
  · refine .inr fun b hb => ?_
    have top := c.val.toNat_lt
    split at hb
    · simp only [List.mem_cons, List.not_mem_nil, or_false] at hb
      rcases hb with rfl | rfl <;> rw [UInt8.toNat_ofNat'] <;> omega
    · split at hb
      · simp only [List.mem_cons, List.not_mem_nil, or_false] at hb
        rcases hb with rfl | rfl | rfl <;> rw [UInt8.toNat_ofNat'] <;> omega
      · simp only [List.mem_cons, List.not_mem_nil, or_false] at hb
        rcases hb with rfl | rfl | rfl | rfl <;> rw [UInt8.toNat_ofNat'] <;> omega

theorem encode_cut {cs : List Char} {u v : List UInt8} {b : UInt8} (hb : b.toNat < 128)
    (h : encode cs = u ++ b :: v) : ∃ cs₁ c cs₂, cs = cs₁ ++ c :: cs₂ ∧ u = encode cs₁ ∧
      String.utf8EncodeChar c = [b] ∧ v = encode cs₂ := by
  induction cs generalizing u with
  | nil => simp at h
  | cons c cs ih =>
    rw [encode_cons] at h
    -- either the cut lies behind the first character, or inside of it
    rcases List.append_eq_append_iff.mp h with ⟨u', rfl, rest⟩ | ⟨w, whole, rest⟩
    · obtain ⟨cs₁, c', cs₂, rfl, rfl, hc, hv⟩ := ih rest
      exact ⟨c :: cs₁, c', cs₂, rfl, rfl, hc, hv⟩
    · cases w with
      | nil =>
        obtain ⟨cs₁, c', cs₂, rfl, hu, hc, hv⟩ := ih (u := []) (by simpa using rest.symm)
        refine ⟨c :: cs₁, c', cs₂, rfl, ?_, hc, hv⟩
        rw [encode_cons, ← hu]
        simpa using whole.symm
      | cons b' w =>
        obtain ⟨rfl, rest⟩ := List.cons.inj rest
        rcases utf8EncodeChar_cases c with ⟨a, ha⟩ | high
        · have parts := ha.symm.trans whole
          cases u with
          | nil =>
            obtain ⟨rfl, hw⟩ := List.cons.inj parts
            subst hw
            exact ⟨[], c, cs, rfl, rfl, ha, by simpa using rest⟩
          | cons x u => simp at parts
        · have := high b (whole ▸ by simp)
          omega

/-- The zeros among the decimal digits of Unicode; the digits from 1 to 9 follow each of them. -/
def zeros : List Nat :=
  [0x30, 0x660, 0x6f0, 0x7c0, 0x966, 0x9e6, 0xa66, 0xae6, 0xb66, 0xbe6, 0xc66, 0xce6, 0xd66, 0xde6, 0xe50,
   0xed0, 0xf20, 0x1040, 0x1090, 0x17e0, 0x1810, 0x1946, 0x19d0, 0x1a80, 0x1a90, 0x1b50, 0x1bb0, 0x1c40,
   0x1c50, 0xa620, 0xa8d0, 0xa900, 0xa9d0, 0xa9f0, 0xaa50, 0xabf0, 0xff10, 0x104a0, 0x10d30, 0x11066,
   0x110f0, 0x11136, 0x111d0, 0x112f0, 0x11450, 0x114d0, 0x11650, 0x116c0, 0x11730, 0x118e0, 0x11950,
   0x11c50, 0x11d50, 0x11da0, 0x16a60, 0x16ac0, 0x16b50, 0x1d7ce, 0x1d7d8, 0x1d7e2, 0x1d7ec, 0x1d7f6,
   0x1e140, 0x1e2f0, 0x1e950, 0x1fbf0]

def digit (c : Char) : Option Nat :=
  (zeros.find? fun z => z ≤ c.toNat && c.toNat < z + 10).map (c.toNat - ·)

def isSpace (c : Char) : Bool :=
  let n := c.toNat
  9 ≤ n && n ≤ 13 || 28 ≤ n && n ≤ 32 || n == 0x85 || n == 0xa0 || n == 0x1680 || 0x2000 ≤ n && n ≤ 0x200a ||
    n == 0x2028 || n == 0x2029 || n == 0x202f || n == 0x205f || n == 0x3000

/-- The value `v` of the digits so far, of which the last character was one or was not. -/
def digits : List Char → Nat → Bool → Option Nat
  | [], v, last => if last then some v else none
  | c :: cs, v, last =>
    if c = '_' then if last then digits cs v false else none
    else (digit c).bind fun d => digits cs (10 * v + d) true

/-- What `int` strips: of the white space of ASCII only what C's `isspace` has, not the separators
from 28 to 31. -/
def intSpace (c : Char) : Bool := isSpace c && !(28 ≤ c.toNat && c.toNat ≤ 31)

/-- The most digits that `int` takes. -/
def maxStrDigits : Nat := 4300

def int (s : List Char) : Option Int :=
  let t := (s.dropWhile intSpace).rdropWhile intSpace
  if maxStrDigits < t.countP (fun c => (digit c).isSome) then none
  else
    match t with
    | '+' :: cs => (digits cs 0 false).map Int.ofNat
    | '-' :: cs => (digits cs 0 false).map fun n => - Int.ofNat n
    | cs => (digits cs 0 false).map Int.ofNat

def chars (bs : List UInt8) : List Char := bs.map fun b => Char.ofNat b.toNat

theorem utf8EncodeChar_ascii : ∀ n : Fin 128, String.utf8EncodeChar (Char.ofNat n) = [UInt8.ofNat n] := by
  decide

theorem encode_chars {bs : List UInt8} (h : ∀ b ∈ bs, b.toNat < 128) : encode (chars bs) = bs := by
  induction bs with
  | nil => rfl
  | cons b bs ih =>
    obtain ⟨hb, hbs⟩ := List.forall_mem_cons.mp h
    have first := utf8EncodeChar_ascii ⟨b.toNat, hb⟩
    rw [UInt8.ofNat_toNat] at first
    have tail := ih hbs
    unfold chars at tail ⊢
    rw [List.map_cons, encode_cons, first, tail]
    rfl

theorem digit_char : ∀ d < 10, digit (Char.ofNat (48 + d)) = some d ∧ Char.ofNat (48 + d) ≠ '_' ∧
    Char.ofNat (48 + d) ≠ '+' ∧ Char.ofNat (48 + d) ≠ '-' ∧ isSpace (Char.ofNat (48 + d)) = false := by
  decide

theorem digits_chars {ds : List Nat} (h : ∀ d ∈ ds, d < 10) (v : Nat) :
    digits (ds.map fun d => Char.ofNat (48 + d)) v true = some (ds.foldl (fun v d => 10 * v + d) v) := by
  induction ds generalizing v with
  | nil => rfl
  | cons d ds ih =>
    obtain ⟨hd, hds⟩ := List.forall_mem_cons.mp h
    have char := digit_char d hd
    rw [List.map_cons, digits, if_neg char.2.1, char.1]
    exact ih hds _

theorem digits_value {ds : List Nat} (hne : ds ≠ []) (h : ∀ d ∈ ds, d < 10) :
    digits (ds.map fun d => Char.ofNat (48 + d)) 0 false = some (ds.foldl (fun v d => 10 * v + d) 0) := by
  cases ds with
  | nil => exact absurd rfl hne
  | cons d ds =>
    obtain ⟨hd, hds⟩ := List.forall_mem_cons.mp h
    have char := digit_char d hd
    rw [List.map_cons, digits, if_neg char.2.1, char.1]
    exact digits_chars hds _

theorem int_digits {ds : List Nat} (hne : ds ≠ []) (h : ∀ d ∈ ds, d < 10) (few : ds.length ≤ maxStrDigits) :
    int (ds.map fun d => Char.ofNat (48 + d)) = some ((ds.foldl (fun v d => 10 * v + d) 0 : Nat) : Int) := by
  have solid : ∀ c ∈ ds.map fun d => Char.ofNat (48 + d), ¬ intSpace c = true := by
    intro c hc
    obtain ⟨d, hd, rfl⟩ := List.mem_map.mp hc
    simp [intSpace, (digit_char d (h d hd)).2.2.2.2]
  have stripped : ((ds.map fun d => Char.ofNat (48 + d)).dropWhile intSpace).rdropWhile intSpace =
      ds.map fun d => Char.ofNat (48 + d) := by
    rw [List.dropWhile_eq_self_iff.mpr, List.rdropWhile_eq_self_iff.mpr]
    · intro hl
      exact solid _ (List.getLast_mem hl)
    · intro hl
      exact solid _ (List.getElem_mem hl)
  have short : ¬ maxStrDigits < (ds.map fun d => Char.ofNat (48 + d)).countP fun c => (digit c).isSome := by
    have count := List.countP_le_length (p := fun c => (digit c).isSome) (l := ds.map fun d => Char.ofNat (48 + d))
    rw [List.length_map] at count
    omega
  have value := digits_value hne h
  simp only [int, stripped, if_neg short]
  cases ds with
  | nil => exact absurd rfl hne
  | cons d ds =>
    obtain ⟨-, -, plus, minus, -⟩ := digit_char d (h d List.mem_cons_self)
    rw [List.map_cons]
    split
    · rename_i heq
      exact absurd (List.cons.inj heq).1 plus
    · rename_i heq
      exact absurd (List.cons.inj heq).1 minus
    · rw [List.map_cons] at value
      rw [value]
      rfl

example : int [Char.ofNat 28, '5'] = none ∧ int [Char.ofNat 160, '5'] = some 5 := by decide

/-- The characters of the file with the end of every line that the file object yields: a line ends
behind a line feed, a carriage return or both, and at the end of the file. -/
def tokens : List Char → List (Option Char)
  | [] => []
  | [c] => [some c, none]
  | c :: d :: cs =>
    if c = '\n' ∨ c = '\r' ∧ d ≠ '\n' then some c :: none :: tokens (d :: cs)
    else some c :: tokens (d :: cs)

inductive State
  | startRecord
  | startField
  | inField
  | inQuotedField
  | quoteInQuotedField
  | eatCrnl
  deriving DecidableEq

structure Reader where
  state : State := .startRecord
  field : List Char := []
  fields : List (List Char) := []

def fieldLimit : Nat := 131072

namespace Reader

def addChar (p : Reader) (c : Char) (s : State) : Option Reader :=
  if p.field.length < fieldLimit then some { p with field := p.field ++ [c], state := s } else none

def saveField (p : Reader) (s : State) : Reader :=
  { p with field := [], fields := p.fields ++ [p.field], state := s }

def endField (p : Reader) : Option Char → Option Reader
  | none => some (p.saveField .startRecord)
  | some c =>
    if c = ',' then some (p.saveField .startField)
    else if c = '\n' ∨ c = '\r' then some (p.saveField .eatCrnl) else none

def plainChar (p : Reader) (c : Option Char) : Option Reader :=
  (p.endField c).or (c.bind fun c => p.addChar c .inField)

def startField (p : Reader) (c : Option Char) : Option Reader :=
  if c = some '"' then some { p with state := .inQuotedField } else p.plainChar c

/-- `parse_process_char`; the end of a line is `none`. -/
def process (p : Reader) (c : Option Char) : Option Reader :=
  match p.state with
  | .startRecord =>
    match c with
    | none => some p
    | some c =>
      if c = '\n' ∨ c = '\r' then some { p with state := .eatCrnl } else p.startField (some c)
  | .startField => p.startField c
  | .inField => p.plainChar c
  | .inQuotedField =>
    match c with
    | none => some p
    | some c => if c = '"' then some { p with state := .quoteInQuotedField } else p.addChar c .inQuotedField
  | .quoteInQuotedField =>
    if c = some '"' then p.addChar '"' .inQuotedField
    else p.plainChar c
  | .eatCrnl =>
    match c with
    | none => some { p with state := .startRecord }
    | some c => if c = '\n' ∨ c = '\r' then some p else none

end Reader

/-- The records of a file, as `list(csv.reader(f))` makes them of its lines. A quoted field that is
open at the end of the file ends there. -/
def records : List (Option Char) → Reader → Option (List (List (List Char)))
  | [], p =>
    if p.field ≠ [] ∨ p.state = .inQuotedField then some [p.fields ++ [p.field]] else some []
  | c :: cs, p =>
    (p.process c).bind fun p =>
      if c = none ∧ p.state = .startRecord then (records cs {}).map (p.fields :: ·) else records cs p

def Inner (c : Char) : Prop := c ≠ ',' ∧ c ≠ '\n' ∧ c ≠ '\r'

instance (c : Char) : Decidable (Inner c) := inferInstanceAs (Decidable (_ ∧ _ ∧ _))

/-- A field that the reader returns as it is written. -/
structure Plain (f : List Char) : Prop where
  inner : ∀ c ∈ f, Inner c
  unquoted : f.head? ≠ some '"'
  short : f.length ≤ fieldLimit

theorem tokens_append {u : List Char} (hu : ∀ c ∈ u, c ≠ '\n' ∧ c ≠ '\r') (c : Char) (rest : List Char) :
    tokens (u ++ c :: rest) = u.map some ++ tokens (c :: rest) := by
  induction u with
  | nil => rfl
  | cons x u ih =>
    have hx := hu x List.mem_cons_self
    have tail := ih fun y hy => hu y (List.mem_cons_of_mem _ hy)
    rw [List.cons_append, List.map_cons, List.cons_append, ← tail]
    cases hrest : u ++ c :: rest with
    | nil => simp at hrest
    | cons d cs => simp [tokens, hx.1, hx.2]

theorem tokens_newline (rest : List Char) : tokens ('\n' :: rest) = some '\n' :: none :: tokens rest := by
  cases rest with
  | nil => rfl
  | cons d cs => simp [tokens]

theorem tokens_cons (c : Char) (rest : List Char) : ∃ ts, tokens (c :: rest) = some c :: ts := by
  cases rest with
  | nil => exact ⟨[none], rfl⟩
  | cons d cs =>
    unfold tokens
    split
    · exact ⟨_, rfl⟩
    · exact ⟨_, rfl⟩

theorem tokens_comma (c : Char) (rest : List Char) : tokens (',' :: c :: rest) = some ',' :: tokens (c :: rest) := by
  simp [tokens]

theorem tokens_line {u : List Char} (hu : ∀ c ∈ u, c ≠ '\n' ∧ c ≠ '\r') (rest : List Char) :
    tokens (u ++ '\n' :: rest) = u.map some ++ some '\n' :: none :: tokens rest := by
  rw [tokens_append hu, tokens_newline]

theorem tokens_front {u : List Char} (hu : ∀ c ∈ u, c ≠ '\n' ∧ c ≠ '\r') (c : Char) (rest : List Char) :
    ∃ ts, tokens (u ++ c :: rest) = u.map some ++ some c :: ts := by
  obtain ⟨ts, hts⟩ := tokens_cons c rest
  exact ⟨ts, by rw [tokens_append hu, hts]⟩

namespace Reader

theorem endField_inner (p : Reader) {c : Char} (hc : Inner c) : p.endField (some c) = none := by
  simp [endField, hc.1, hc.2.1, hc.2.2]

theorem plainChar_inner (p : Reader) {c : Char} (hc : Inner c) : p.plainChar (some c) = p.addChar c .inField := by
  simp [plainChar, p.endField_inner hc]

theorem endField_break (p : Reader) {c : Char} (hc : ¬ Inner c) :
    ∃ s, p.endField (some c) = some (p.saveField s) := by
  unfold Inner at hc
  unfold endField
  by_cases comma : c = ','
  · exact ⟨_, if_pos comma⟩
  · simp only [if_neg comma]
    exact ⟨_, if_pos (by tauto)⟩

theorem plainChar_break (p : Reader) {c : Char} (hc : ¬ Inner c) :
    ∃ s, p.plainChar (some c) = some (p.saveField s) := by
  obtain ⟨s, hs⟩ := p.endField_break hc
  exact ⟨s, by rw [plainChar, hs, Option.some_or]⟩

end Reader

theorem records_cons {c : Option Char} {p p' : Reader} (h : p.process c = some p')
    (going : c = none → p'.state ≠ .startRecord) (ts : List (Option Char)) :
    records (c :: ts) p = records ts p' := by
  simp only [records, h, Option.bind_some]
  exact if_neg fun hs => going hs.1 hs.2

theorem records_stuck {c : Option Char} {p : Reader} (h : p.process c = none) (ts : List (Option Char)) :
    records (c :: ts) p = none := by
  simp [records, h]

theorem records_inner {cs : List Char} (hcs : ∀ c ∈ cs, Inner c) (ts : List (Option Char)) {g : List Char}
    (fs : List (List Char)) (fits : g.length + cs.length ≤ fieldLimit) :
    records (cs.map some ++ ts) ⟨.inField, g, fs⟩ = records ts ⟨.inField, g ++ cs, fs⟩ := by
  induction cs generalizing g with
  | nil => simp
  | cons c cs ih =>
    rw [List.length_cons] at fits
    have added : Reader.process ⟨.inField, g, fs⟩ (some c) = some ⟨.inField, g ++ [c], fs⟩ :=
      (Reader.plainChar_inner _ (hcs c List.mem_cons_self)).trans (if_pos (show g.length < fieldLimit by omega))
    rw [List.map_cons, List.cons_append, records_cons added nofun,
      ih (fun x hx => hcs x (List.mem_cons_of_mem _ hx)) (by simp; omega)]
    simp

theorem records_overflow {cs : List Char} (hcs : ∀ c ∈ cs, Inner c) (ts : List (Option Char)) {g : List Char}
    (fs : List (List Char)) (held : g.length ≤ fieldLimit) (long : fieldLimit < g.length + cs.length) :
    records (cs.map some ++ ts) ⟨.inField, g, fs⟩ = none := by
  induction cs generalizing g with
  | nil => simp at long; omega
  | cons c cs ih =>
    rw [List.length_cons] at long
    have inner := Reader.plainChar_inner ⟨.inField, g, fs⟩ (hcs c List.mem_cons_self)
    rw [List.map_cons, List.cons_append]
    by_cases room : g.length < fieldLimit
    · have added : Reader.process ⟨.inField, g, fs⟩ (some c) = some ⟨.inField, g ++ [c], fs⟩ :=
        inner.trans (if_pos room)
      rw [records_cons added nofun]
      exact ih (fun x hx => hcs x (List.mem_cons_of_mem _ hx)) (by simp; omega) (by simp; omega)
    · have stuck : Reader.process ⟨.inField, g, fs⟩ (some c) = none := inner.trans (if_neg room)
      exact records_stuck stuck _

theorem process_start {c : Char} (hc : Inner c) (unquoted : c ≠ '"') {s : State}
    (hs : s = .startRecord ∨ s = .startField) (fs : List (List Char)) :
    Reader.process ⟨s, [], fs⟩ (some c) = some ⟨.inField, [c], fs⟩ := by
  have start : Reader.startField ⟨.startField, [], fs⟩ (some c) = some ⟨.inField, [c], fs⟩ := by
    unfold Reader.startField
    rw [if_neg (by simpa using unquoted), Reader.plainChar_inner _ hc]
    rfl
  have start' : Reader.startField ⟨.startRecord, [], fs⟩ (some c) = some ⟨.inField, [c], fs⟩ := by
    unfold Reader.startField
    rw [if_neg (by simpa using unquoted), Reader.plainChar_inner _ hc]
    rfl
  rcases hs with rfl | rfl
  · simp only [Reader.process, hc.2.1, hc.2.2, or_self, if_false]
    exact start'
  · exact start

theorem records_field {f : List Char} (hf : Plain f) (hne : f ≠ []) (ts : List (Option Char))
    (fs : List (List Char)) {s : State} (hs : s = .startRecord ∨ s = .startField) :
    records (f.map some ++ ts) ⟨s, [], fs⟩ = records ts ⟨.inField, f, fs⟩ := by
  cases f with
  | nil => exact absurd rfl hne
  | cons c cs =>
    have first := process_start (hf.inner c List.mem_cons_self) (by simpa using hf.unquoted) hs fs
    have short := hf.short
    rw [List.length_cons] at short
    rw [List.map_cons, List.cons_append, records_cons first nofun,
      records_inner (fun x hx => hf.inner x (List.mem_cons_of_mem _ hx)) ts fs (by simp; omega)]
    rfl

theorem records_long {f : List Char} (hf : ∀ c ∈ f, Inner c) (unquoted : f.head? ≠ some '"')
    (long : fieldLimit < f.length) (ts : List (Option Char)) {fs : List (List Char)} :
    records (f.map some ++ ts) ⟨.startField, [], fs⟩ = none := by
  cases f with
  | nil => exact absurd long (Nat.not_lt_zero _)
  | cons c cs =>
    have first := process_start (hf c List.mem_cons_self) (by simpa using unquoted) (.inr rfl) fs
    rw [List.length_cons] at long
    rw [List.map_cons, List.cons_append, records_cons first nofun]
    exact records_overflow (fun x hx => hf x (List.mem_cons_of_mem _ hx)) ts fs (by simp [fieldLimit]) (by simp; omega)

theorem records_comma (f : List Char) (ts : List (Option Char)) (fs : List (List Char)) :
    records (some ',' :: ts) ⟨.inField, f, fs⟩ = records ts ⟨.startField, [], fs ++ [f]⟩ :=
  records_cons rfl (fun h => by cases h) ts

theorem records_newline (f : List Char) (ts : List (Option Char)) (fs : List (List Char)) :
    records (some '\n' :: none :: ts) ⟨.inField, f, fs⟩ = (records ts {}).map ((fs ++ [f]) :: ·) := rfl

theorem records_plain {f : List Char} {fs : List (List Char)} (plain : ∀ g ∈ f :: fs, Plain g ∧ g ≠ [])
    (ts : List (Option Char)) (gs : List (List Char)) {s : State} (hs : s = .startRecord ∨ s = .startField) :
    ∃ init last, f :: fs = init ++ [last] ∧
      records (([','].intercalate (f :: fs)).map some ++ ts) ⟨s, [], gs⟩ =
        records ts ⟨.inField, last, gs ++ init⟩ := by
  induction fs generalizing f gs s with
  | nil =>
    obtain ⟨hf, hne⟩ := plain f List.mem_cons_self
    refine ⟨[], f, rfl, ?_⟩
    rw [List.intercalate_singleton, records_field hf hne _ _ hs, List.append_nil]
  | cons g fs ih =>
    obtain ⟨hf, hne⟩ := plain f List.mem_cons_self
    obtain ⟨init, last, parts, tail⟩ :=
      ih (fun x hx => plain x (List.mem_cons_of_mem _ hx)) (gs ++ [f]) (.inr rfl)
    refine ⟨f :: init, last, by rw [parts, List.cons_append], ?_⟩
    simp only [List.intercalate_cons_cons, List.map_append, List.map_cons, List.append_assoc,
      List.cons_append, List.nil_append]
    rw [records_field hf hne _ _ hs, records_comma, tail, List.append_assoc]
    rfl

theorem records_row {f : List Char} {fs : List (List Char)} (plain : ∀ g ∈ f :: fs, Plain g ∧ g ≠ [])
    (ts : List (Option Char)) {gs : List (List Char)} {s : State} (hs : s = .startRecord ∨ s = .startField) :
    records (([','].intercalate (f :: fs)).map some ++ some '\n' :: none :: ts) ⟨s, [], gs⟩ =
      (records ts {}).map ((gs ++ f :: fs) :: ·) := by
  obtain ⟨init, last, parts, read⟩ := records_plain plain (some '\n' :: none :: ts) gs hs
  rw [read, records_newline, parts, List.append_assoc]

theorem records_before {f : List Char} {fs : List (List Char)} (plain : ∀ g ∈ f :: fs, Plain g ∧ g ≠ [])
    (ts : List (Option Char)) {gs : List (List Char)} {s : State} (hs : s = .startRecord ∨ s = .startField) :
    records (([','].intercalate (f :: fs)).map some ++ some ',' :: ts) ⟨s, [], gs⟩ =
      records ts ⟨.startField, [], gs ++ f :: fs⟩ := by
  obtain ⟨init, last, parts, read⟩ := records_plain plain (some ',' :: ts) gs hs
  rw [read, records_comma, parts, List.append_assoc]

theorem endField_spec {p p' : Reader} {c : Option Char} (h : p.endField c = some p') :
    p'.fields = p.fields ++ [p.field] := by
  unfold Reader.endField at h
  split at h
  · cases h
    rfl
  · split at h
    · cases h
      rfl
    · split at h
      · cases h
        rfl
      · cases h

theorem addChar_spec {p p' : Reader} {c : Char} {s : State} (h : p.addChar c s = some p') :
    p' = { p with field := p.field ++ [c], state := s } := by
  unfold Reader.addChar at h
  split at h
  · exact (Option.some.inj h).symm
  · cases h

theorem plainChar_spec {p p' : Reader} {c : Option Char} (h : p.plainChar c = some p') :
    p'.fields = p.fields ++ [p.field] ∨
      ∃ d, c = some d ∧ p' = { p with field := p.field ++ [d], state := .inField } := by
  unfold Reader.plainChar at h
  rcases Option.or_eq_some_iff.mp h with h | ⟨-, h⟩
  · exact .inl (endField_spec h)
  · obtain ⟨d, hd, h⟩ := Option.bind_eq_some_iff.mp h
    exact .inr ⟨d, hd, addChar_spec h⟩

theorem startField_spec {p p' : Reader} {c : Option Char} (h : p.startField c = some p') :
    p.fields <+: p'.fields := by
  unfold Reader.startField at h
  split at h
  · cases h
    exact List.prefix_rfl
  · rcases plainChar_spec h with done | ⟨d, -, rfl⟩
    · exact done ▸ List.prefix_append _ _
    · exact List.prefix_rfl

def State.within : State → Prop
  | .inField | .inQuotedField | .quoteInQuotedField => True
  | _ => False

theorem plainChar_within {p p' : Reader} {c : Option Char} (h : p.plainChar c = some p') :
    p'.fields = p.fields ++ [p.field] ∨ p'.fields = p.fields ∧ p.field <+: p'.field ∧ p'.state.within := by
  rcases plainChar_spec h with done | ⟨d, -, rfl⟩
  · exact .inl done
  · exact .inr ⟨rfl, List.prefix_append _ _, trivial⟩

theorem process_quoted (c : Char) (f : List Char) (fs : List (List Char)) :
    Reader.process ⟨.inQuotedField, f, fs⟩ (some c) =
      if c = '"' then some ⟨.quoteInQuotedField, f, fs⟩
      else Reader.addChar ⟨.inQuotedField, f, fs⟩ c .inQuotedField := rfl

theorem process_quote (c : Option Char) (f : List Char) (fs : List (List Char)) :
    Reader.process ⟨.quoteInQuotedField, f, fs⟩ c =
      if c = some '"' then Reader.addChar ⟨.quoteInQuotedField, f, fs⟩ '"' .inQuotedField
      else Reader.plainChar ⟨.quoteInQuotedField, f, fs⟩ c := rfl

theorem process_first (c : Char) (f : List Char) (fs : List (List Char)) :
    Reader.process ⟨.startRecord, f, fs⟩ (some c) =
      if c = '\n' ∨ c = '\r' then some ⟨.eatCrnl, f, fs⟩
      else Reader.startField ⟨.startRecord, f, fs⟩ (some c) := rfl

theorem process_break (c : Char) (f : List Char) (fs : List (List Char)) :
    Reader.process ⟨.eatCrnl, f, fs⟩ (some c) =
      if c = '\n' ∨ c = '\r' then some ⟨.eatCrnl, f, fs⟩ else none := rfl

theorem process_within {p p' : Reader} {c : Option Char} (hs : p.state.within) (h : p.process c = some p') :
    p'.fields = p.fields ++ [p.field] ∨ p'.fields = p.fields ∧ p.field <+: p'.field ∧ p'.state.within := by
  obtain ⟨state, field, fields⟩ := p
  have stays : ∀ s : State, s.within → p' = ⟨s, field, fields⟩ →
      p'.fields = fields ++ [field] ∨ p'.fields = fields ∧ field <+: p'.field ∧ p'.state.within := by
    rintro s within rfl
    exact .inr ⟨rfl, List.prefix_rfl, within⟩
  have grows : ∀ c s, State.within s → Reader.addChar ⟨state, field, fields⟩ c s = some p' →
      p'.fields = fields ++ [field] ∨ p'.fields = fields ∧ field <+: p'.field ∧ p'.state.within := by
    intro c s within h
    rw [addChar_spec h]
    exact .inr ⟨rfl, List.prefix_append _ _, within⟩
  cases state with
  | inField => exact plainChar_within h
  | inQuotedField =>
    cases c with
    | none => exact stays .inQuotedField trivial (Option.some.inj h).symm
    | some c =>
      by_cases hc : c = '"'
      · rw [process_quoted, if_pos hc] at h
        exact stays .quoteInQuotedField trivial (Option.some.inj h).symm
      · rw [process_quoted, if_neg hc] at h
        exact grows c .inQuotedField trivial h
  | quoteInQuotedField =>
    by_cases hc : c = some '"'
    · rw [process_quote, if_pos hc] at h
      exact grows _ .inQuotedField trivial h
    · rw [process_quote, if_neg hc] at h
      exact plainChar_within h
  | _ => exact hs.elim

theorem process_fields {p p' : Reader} {c : Option Char} (h : p.process c = some p') : p.fields <+: p'.fields := by
  by_cases within : p.state.within
  · rcases process_within within h with done | ⟨same, -⟩
    · exact done ▸ List.prefix_append _ _
    · exact same ▸ List.prefix_rfl
  · obtain ⟨state, field, fields⟩ := p
    cases state with
    | startRecord =>
      cases c with
      | none => exact Option.some.inj h ▸ List.prefix_rfl
      | some c =>
        by_cases hc : c = '\n' ∨ c = '\r'
        · rw [process_first, if_pos hc] at h
          exact Option.some.inj h ▸ List.prefix_rfl
        · rw [process_first, if_neg hc] at h
          exact startField_spec h
    | startField => exact startField_spec h
    | eatCrnl =>
      cases c with
      | none => exact Option.some.inj h ▸ List.prefix_rfl
      | some c =>
        by_cases hc : c = '\n' ∨ c = '\r'
        · rw [process_break, if_pos hc] at h
          exact Option.some.inj h ▸ List.prefix_rfl
        · rw [process_break, if_neg hc] at h
          cases h
    | _ => exact absurd trivial within

theorem records_fields {ts : List (Option Char)} {p : Reader} {r : List (List Char)} {rs : List (List (List Char))}
    (h : records ts p = some (r :: rs)) : p.fields <+: r := by
  induction ts generalizing p with
  | nil =>
    unfold records at h
    split at h
    · cases h
      exact List.prefix_append _ _
    · cases h
  | cons c ts ih =>
    obtain ⟨p', hp, rest⟩ := Option.bind_eq_some_iff.mp h
    have kept := process_fields hp
    split at rest
    · obtain ⟨tail, -, ht⟩ := Option.map_eq_some_iff.mp rest
      exact (List.cons.inj ht).1 ▸ kept
    · exact kept.trans (ih rest)

theorem records_within {ts : List (Option Char)} {p : Reader} {r : List (List Char)} {rs : List (List (List Char))}
    (hs : p.state.within) (h : records ts p = some (r :: rs)) : ∃ x, p.field <+: x ∧ p.fields ++ [x] <+: r := by
  induction ts generalizing p with
  | nil =>
    unfold records at h
    split at h
    · cases h
      exact ⟨p.field, List.prefix_rfl, List.prefix_rfl⟩
    · cases h
  | cons c ts ih =>
    obtain ⟨p', hp, rest⟩ := Option.bind_eq_some_iff.mp h
    rcases process_within hs hp with done | ⟨same, grown, hs'⟩
    · refine ⟨p.field, List.prefix_rfl, ?_⟩
      rw [← done]
      split at rest
      · obtain ⟨tail, -, ht⟩ := Option.map_eq_some_iff.mp rest
        exact (List.cons.inj ht).1 ▸ List.prefix_rfl
      · exact records_fields rest
    · split at rest
      · rename_i ended
        rw [ended.2] at hs'
        exact hs'.elim
      · obtain ⟨x, hx, hr⟩ := ih hs' rest
        exact ⟨x, grown.trans hx, same ▸ hr⟩

def quoted (fs : List (List Char)) (k : Nat) : Reader :=
  ⟨if k % 2 = 1 then .inQuotedField else .quoteInQuotedField, List.replicate ((k - 1) / 2) '"', fs⟩

theorem quoted_next {fs : List (List Char)} {k : Nat} (hk : 0 < k) {p : Reader}
    (h : (quoted fs k).process (some '"') = some p) : p = quoted fs (k + 1) := by
  unfold quoted at h ⊢
  by_cases odd : k % 2 = 1
  · rw [if_pos odd] at h
    rw [if_neg (by omega), show (k + 1 - 1) / 2 = (k - 1) / 2 by omega]
    exact (Option.some.inj h).symm
  · rw [if_neg odd] at h
    rw [if_pos (by omega), show (k + 1 - 1) / 2 = (k - 1) / 2 + 1 by omega, List.replicate_succ']
    exact addChar_spec h

theorem records_quotes {fs : List (List Char)} {ts : List (Option Char)} {recs : List (List (List Char))}
    {k : Nat} (hk : 0 < k) (n : Nat) (h : records (List.replicate n (some '"') ++ ts) (quoted fs k) = some recs) :
    records ts (quoted fs (k + n)) = some recs := by
  induction n generalizing k with
  | zero => exact h
  | succ n ih =>
    rw [List.replicate_succ, List.cons_append] at h
    obtain ⟨p, hp, rest⟩ := Option.bind_eq_some_iff.mp h
    rw [if_neg (fun hs => by cases hs.1), quoted_next hk hp] at rest
    rw [show k + (n + 1) = k + 1 + n by omega]
    exact ih (Nat.succ_pos k) rest

theorem records_quoted {fs : List (List Char)} {ts : List (Option Char)} {c : Char} (hc : c ≠ '"') {k : Nat}
    (hk : 0 < k) {r : List (List Char)} {rs : List (List (List Char))}
    (h : records (some c :: ts) (quoted fs k) = some (r :: rs)) :
    ∃ x, fs ++ [x] <+: r ∧ ¬ List.replicate k '"' <+: x := by
  obtain ⟨p, hp, rest⟩ := Option.bind_eq_some_iff.mp h
  rw [if_neg (fun hs => by cases hs.1)] at rest
  have short : ∀ x, List.replicate ((k - 1) / 2) '"' ++ [c] <+: x → ¬ List.replicate k '"' <+: x := by
    rintro x ⟨y, rfl⟩ ⟨z, hz⟩
    have at_c := congrArg (·[(k - 1) / 2]?) hz
    simp only [List.append_assoc] at at_c
    rw [List.getElem?_append_left (by simp; omega), List.getElem?_append_right (by simp),
      List.length_replicate, Nat.sub_self, List.getElem?_replicate, if_pos (by omega)] at at_c
    exact hc (Option.some.inj at_c).symm
  have within : (quoted fs k).state.within := by
    unfold quoted
    split <;> trivial
  rcases process_within within hp with done | ⟨same, -, hs⟩
  · refine ⟨_, done ▸ records_fields rest, ?_⟩
    rintro ⟨z, hz⟩
    have len := congrArg List.length hz
    simp [quoted] at len
    omega
  · have grown : p.field = List.replicate ((k - 1) / 2) '"' ++ [c] := by
      unfold quoted at hp same
      split at hp
      · rw [process_quoted, if_neg hc] at hp
        rw [addChar_spec hp]
      · rw [process_quote, if_neg (by simpa using hc)] at hp
        rcases plainChar_spec hp with done | ⟨d, hd, rfl⟩
        · rw [done] at same
          simp at same
        · rw [Option.some.inj hd]
    obtain ⟨x, hx, hr⟩ := records_within hs rest
    rw [same] at hr
    exact ⟨x, hr, short x (grown ▸ hx)⟩

theorem exists_break {α : Type} {q : α → Prop} {f : List α} (h : ¬ ∀ c ∈ f, q c) :
    ∃ u c w, f = u ++ c :: w ∧ (∀ x ∈ u, q x) ∧ ¬ q c := by
  induction f with
  | nil => exact absurd nofun h
  | cons c f ih =>
    by_cases hc : q c
    · have tail : ¬ ∀ x ∈ f, q x := fun all => h (List.forall_mem_cons.mpr ⟨hc, all⟩)
      obtain ⟨u, d, w, rfl, hu, hd⟩ := ih tail
      exact ⟨c :: u, d, w, rfl, List.forall_mem_cons.mpr ⟨hc, hu⟩, hd⟩
    · exact ⟨[], c, f, rfl, nofun, hc⟩

theorem exists_quotes (f rest : List Char) : ∃ n c w, f ++ ',' :: rest = List.replicate n '"' ++ c :: w ∧
    c ≠ '"' ∧ List.replicate n '"' <+: f := by
  by_cases all : ∀ c ∈ f, c = '"'
  · have same := List.eq_replicate_of_mem all
    exact ⟨f.length, ',', rest, by rw [← same], by decide, same ▸ List.prefix_rfl⟩
  · obtain ⟨u, c, w, rfl, hu, hc⟩ := exists_break all
    have same := List.eq_replicate_of_mem hu
    exact ⟨u.length, c, w ++ ',' :: rest, by rw [← same]; simp, hc, same ▸ List.prefix_append _ _⟩

theorem Inner.line {u : List Char} (hu : ∀ c ∈ u, Inner c) : ∀ c ∈ u, c ≠ '\n' ∧ c ≠ '\r' :=
  fun c hc => (hu c hc).2

theorem records_broken {u : List Char} (hu : ∀ x ∈ u, Inner x) (unquoted : u.head? ≠ some '"') {c : Char}
    (hc : ¬ Inner c) (ts : List (Option Char)) {fs : List (List Char)} {r : List (List Char)}
    {rs : List (List (List Char))} (h : records (u.map some ++ some c :: ts) ⟨.startField, [], fs⟩ = some (r :: rs)) :
    fs ++ [u] <+: r := by
  have saved : ∀ p : Reader, p.plainChar (some c) = p.process (some c) → p.fields = fs → p.field = u →
      records (some c :: ts) p = some (r :: rs) → fs ++ [u] <+: r := by
    rintro p same rfl rfl h
    obtain ⟨s, hs⟩ := p.plainChar_break hc
    rw [records_cons (same.symm.trans hs) nofun] at h
    exact records_fields h
  cases u with
  | nil =>
    have unquoted : c ≠ '"' := by
      rintro rfl
      exact hc (by decide)
    refine saved ⟨.startField, [], fs⟩ ?_ rfl rfl h
    exact (if_neg (by simpa using unquoted)).symm
  | cons d u =>
    by_cases long : fieldLimit < (d :: u).length
    · rw [records_long hu unquoted long] at h
      cases h
    · have plain : Plain (d :: u) := ⟨hu, unquoted, Nat.le_of_not_lt long⟩
      rw [records_field plain (List.cons_ne_nil _ _) _ fs (.inr rfl)] at h
      exact saved ⟨.inField, d :: u, fs⟩ rfl rfl rfl h

theorem records_changed {f : List Char} (hf : ¬ Plain f) (rest : List Char) {fs : List (List Char)}
    {r : List (List Char)} {rs : List (List (List Char))}
    (h : records (tokens (f ++ ',' :: rest)) ⟨.startField, [], fs⟩ = some (r :: rs)) :
    ∃ x, fs ++ [x] <+: r ∧ x ≠ f := by
  by_cases unquoted : f.head? = some '"'
  · obtain ⟨g, rfl⟩ := List.head?_eq_some_iff.mp unquoted
    obtain ⟨n, c, w, parts, hc, front⟩ := exists_quotes g rest
    have quotes : ∀ x ∈ '"' :: List.replicate n '"', x ≠ '\n' ∧ x ≠ '\r' := by
      intro x hx
      rw [List.eq_of_mem_replicate (n := n + 1) hx]
      decide
    obtain ⟨ts, hts⟩ := tokens_front quotes c w
    have opened : Reader.process ⟨.startField, [], fs⟩ (some '"') = some (quoted fs 1) := rfl
    rw [List.cons_append, parts, ← List.cons_append, hts, List.map_cons, List.map_replicate, List.cons_append,
      records_cons opened nofun] at h
    obtain ⟨x, hx, lost⟩ := records_quoted hc (by omega) (records_quotes Nat.one_pos n h)
    refine ⟨x, hx, ?_⟩
    rintro rfl
    exact lost (Nat.add_comm n 1 ▸ (List.prefix_cons_inj _).mpr front)
  · by_cases inner : ∀ c ∈ f, Inner c
    · have long : fieldLimit < f.length := Nat.lt_of_not_le fun short => hf ⟨inner, unquoted, short⟩
      rw [tokens_append (Inner.line inner), records_long inner unquoted long] at h
      cases h
    · obtain ⟨u, c, w, rfl, hu, hc⟩ := exists_break inner
      rw [List.append_assoc, List.cons_append] at h
      obtain ⟨ts, hts⟩ := tokens_front (Inner.line hu) c (w ++ ',' :: rest)
      rw [hts] at h
      have unquoted' : u.head? ≠ some '"' := by
        cases u with
        | nil => nofun
        | cons d u => exact unquoted
      refine ⟨u, records_broken hu unquoted' hc ts h, fun same => ?_⟩
      have := congrArg List.length same
      simp at this

abbrev Text := List Char

def line (row : List Text) : Text := [','].intercalate row ++ ['\n']

theorem intercalate_line {row : List Text} (h : ∀ f ∈ row, Plain f) :
    ∀ c ∈ [','].intercalate row, c ≠ '\n' ∧ c ≠ '\r' := by
  induction row with
  | nil => nofun
  | cons f row ih =>
    obtain ⟨hf, hrow⟩ := List.forall_mem_cons.mp h
    have here := Inner.line hf.inner
    cases row with
    | nil => simpa using here
    | cons g row =>
      intro c hc
      simp only [List.intercalate_cons_cons, List.mem_append, List.mem_singleton] at hc
      rcases hc with (hc | rfl) | hc
      · exact here c hc
      · decide
      · exact ih hrow c hc

theorem records_lines {rows : List (List Text)} (h : ∀ row ∈ rows, row ≠ [] ∧ ∀ f ∈ row, Plain f ∧ f ≠ [])
    (rest : Text) :
    records (tokens (rows.flatMap line ++ rest)) {} = (records (tokens rest) {}).map (rows ++ ·) := by
  induction rows with
  | nil => simp
  | cons row rows ih =>
    obtain ⟨⟨hne, plain⟩, others⟩ := List.forall_mem_cons.mp h
    have tail := ih others
    cases row with
    | nil => exact absurd rfl hne
    | cons f fs =>
      rw [List.flatMap_cons, line, List.append_assoc, List.append_assoc, List.singleton_append,
        tokens_line (intercalate_line fun g hg => (plain g hg).1), records_row plain _ (.inl rfl), tail]
      simp [Function.comp_def]

def file (rows : List (List (List UInt8))) : List UInt8 := rows.flatMap fun row => [44].intercalate row ++ [10]

def read (bs : List UInt8) : Option (List (List Text)) := (decode bs).bind fun cs => records (tokens cs) {}

def Readable (f : List UInt8) : Prop := ∃ cs, f = encode cs ∧ Plain cs

def text (f : List UInt8) : Text := (decode f).getD []

theorem Readable.text {f : List UInt8} (h : Readable f) : f = encode (text f) ∧ Plain (text f) := by
  obtain ⟨cs, rfl, plain⟩ := h
  unfold Csv.text
  rw [decode_encode]
  exact ⟨rfl, plain⟩

theorem encode_intercalate {row : List (List UInt8)} (h : ∀ f ∈ row, Readable f) :
    [44].intercalate row = encode ([','].intercalate (row.map text)) := by
  induction row with
  | nil => rfl
  | cons f row ih =>
    obtain ⟨hf, hrow⟩ := List.forall_mem_cons.mp h
    cases row with
    | nil => simpa using hf.text.1
    | cons g row =>
      have tail := ih hrow
      simp only [List.map_cons, List.intercalate_cons_cons, encode_append] at tail ⊢
      rw [tail, ← hf.text.1]
      rfl

structure Regular (row : List (List UInt8)) : Prop where
  nonempty : row ≠ []
  readable : ∀ f ∈ row, Readable f ∧ f ≠ []

theorem encode_lines {rows : List (List (List UInt8))} (h : ∀ row ∈ rows, Regular row) :
    file rows = encode ((rows.map (·.map text)).flatMap line) := by
  induction rows with
  | nil => rfl
  | cons row rows ih =>
    obtain ⟨regular, others⟩ := List.forall_mem_cons.mp h
    have tail := ih others
    unfold file at tail ⊢
    rw [List.flatMap_cons, List.map_cons, List.flatMap_cons, encode_append, tail, line, encode_append,
      encode_intercalate fun f hf => (regular.readable f hf).1]
    rfl

theorem Regular.text {row : List (List UInt8)} (h : Regular row) :
    row.map text ≠ [] ∧ ∀ f ∈ row.map text, Plain f ∧ f ≠ [] := by
  refine ⟨by simpa using h.nonempty, fun f hf => ?_⟩
  obtain ⟨b, hb, rfl⟩ := List.mem_map.mp hf
  obtain ⟨readable, hne⟩ := h.readable b hb
  refine ⟨readable.text.2, fun empty => hne ?_⟩
  rw [readable.text.1, empty]
  rfl

theorem regular_texts {rows : List (List (List UInt8))} (h : ∀ row ∈ rows, Regular row) :
    ∀ row ∈ rows.map (·.map text), row ≠ [] ∧ ∀ f ∈ row, Plain f ∧ f ≠ [] := by
  intro row hrow
  obtain ⟨row, hr, rfl⟩ := List.mem_map.mp hrow
  exact (h row hr).text

theorem read_regular {rows : List (List (List UInt8))} (h : ∀ row ∈ rows, Regular row) :
    read (file rows) = some (rows.map (·.map text)) := by
  have texts := regular_texts h
  have all := records_lines texts []
  rw [List.append_nil] at all
  rw [read, encode_lines h, decode_encode, Option.bind_some, all]
  simp [tokens, records]

theorem encodeChar_comma {c : Char} (h : String.utf8EncodeChar c = [44]) : c = ',' := by
  have same : encode [c] = encode [','] := by
    rw [encode_cons, h]
    rfl
  exact (List.cons.inj (encode_inj same)).1

theorem encode_field {cs : Text} {u f v : List UInt8} (h : encode cs = u ++ 44 :: (f ++ 44 :: v)) :
    ∃ a y z, cs = a ++ ',' :: (y ++ ',' :: z) ∧ u = encode a ∧ f = encode y := by
  obtain ⟨a, c, b, rfl, hu, hc, rest⟩ := encode_cut (by decide) h
  obtain ⟨y, d, z, rfl, hf, hd, -⟩ := encode_cut (by decide) rest.symm
  rw [encodeChar_comma hc, encodeChar_comma hd]
  exact ⟨a, y, z, rfl, hu, hf⟩

theorem read_unreadable {rows : List (List (List UInt8))} (h : ∀ row ∈ rows, Regular row)
    {front : List (List UInt8)} (hfront : Regular front) {f : List UInt8} (bad : ¬ Readable f)
    (rest : List UInt8) {recs : List (List Text)}
    (hr : read (file rows ++ [44].intercalate front ++ 44 :: (f ++ 44 :: rest)) = some recs) :
    ∃ tail, recs = rows.map (·.map text) ++ tail ∧
      ∀ r rs, tail = r :: rs → ∃ x, front.map text ++ [x] <+: r ∧ encode x ≠ f := by
  obtain ⟨cs, decoded, hrecs⟩ := Option.bind_eq_some_iff.mp hr
  obtain ⟨a, y, z, rfl, ha, rfl⟩ := encode_field (decode_eq_some_iff.mp decoded).symm
  have plain : ¬ Plain y := fun plain => bad ⟨y, rfl, plain⟩
  have texts := regular_texts h
  obtain ⟨hne, fields⟩ := hfront.text
  rw [encode_lines h, encode_intercalate fun g hg => (hfront.readable g hg).1, ← encode_append] at ha
  rw [← encode_inj ha, List.append_assoc, records_lines texts] at hrecs
  obtain ⟨tail, htail, rfl⟩ := Option.map_eq_some_iff.mp hrecs
  refine ⟨tail, rfl, ?_⟩
  rintro r rs rfl
  cases hgs : front.map text with
  | nil => exact absurd hgs hne
  | cons g gs =>
    rw [hgs] at htail fields
    obtain ⟨d, w, hw⟩ : ∃ d w, y ++ ',' :: z = d :: w := by
      cases y with
      | nil => exact ⟨_, _, rfl⟩
      | cons d y => exact ⟨_, _, rfl⟩
    rw [tokens_append (intercalate_line fun g hg => (fields g hg).1), hw, tokens_comma, ← hw,
      records_before fields _ (.inl rfl)] at htail
    obtain ⟨x, hx, changed⟩ := records_changed plain z htail
    exact ⟨x, hx, fun same => changed (encode_inj same)⟩

end Csv
