import LinkScheduling.Csv
import LinkScheduling.Requests

/-! The metrics file: the rows of `csv_writer.cpp`, and `load_rows` of `scripts/common.py`, which
reads them back. The writer prints the name of the file as the client sent it, and the reader takes
commas, quotes, line breaks and bytes that are no text for what they are in a file of its kind. -/

namespace LinkScheduling
open Csv

def opToString : Op → Bytes
  | .get => ascii "GET"
  | .put => ascii "PUT"

def kHeader : Bytes :=
  ascii "request_id,op,filename,bytes,rounds,forfeited_bytes,arrival_ns,start_ns,finish_ns"

def comma : UInt8 := 44

/-- An `int` as a stream prints it. -/
def intDecimal (n : Int) : Bytes := if n < 0 then ascii "-" ++ decimal n.natAbs else decimal n.natAbs

def writeRow (req : Request) : Bytes :=
  decimal req.id ++ [comma] ++
  opToString req.op ++ [comma] ++
  req.filename ++ [comma] ++
  decimal req.bytes.toNat ++ [comma] ++
  intDecimal req.counter ++ [comma] ++
  decimal req.forfeitedBytes.toNat ++ [comma] ++
  decimal req.arrivalNs ++ [comma] ++
  decimal req.startNs ++ [comma] ++
  decimal req.finishNs ++ [newline]

def csvFile (reqs : List Request) : Bytes := kHeader ++ [newline] ++ reqs.flatMap writeRow

/-- An entry of the dictionary that `csv.DictReader` makes of a row: the last field of a name counts,
and the value of one that a short row lacks is `None`. -/
def column (name : Text) : List Text → List Text → Option (Option Text)
  | [], _ => none
  | k :: names, row =>
    if name ∈ names then column name names row.tail else if k = name then some row.head? else none

/-- A row, which may lack an entry, or its value. -/
structure Record where
  requestId : Option (Option Text)
  op : Option (Option Text)
  filename : Option (Option Text)
  bytes : Int
  rounds : Int
  forfeitedBytes : Int
  arrivalNs : Int
  startNs : Int
  finishNs : Int

def toRecord (names row : List Text) : Option Record := do
  let number (k : String) : Option Int := (column k.toList names row).join.bind Csv.int
  pure {
    requestId := column "request_id".toList names row
    op := column "op".toList names row
    filename := column "filename".toList names row
    bytes := ← number "bytes"
    rounds := ← number "rounds"
    forfeitedBytes := ← number "forfeited_bytes"
    arrivalNs := ← number "arrival_ns"
    startNs := ← number "start_ns"
    finishNs := ← number "finish_ns" }

/-- The first record names the fields, and empty ones are no rows. -/
def dictReader : List (List Text) → List (List Text × List Text)
  | [] => []
  | names :: rows => (rows.filter (· ≠ [])).map fun row => (names, row)

def loadRows (file : Bytes) : Option (List Record) := do
  let rows ← Csv.read file
  (dictReader rows).mapM fun (names, row) => toRecord names row

/-- The record has the operation, the name, the counts and the times of the request. -/
structure Record.Same (req : Request) (rec : Record) : Prop where
  op : rec.op.join.map encode = some (opToString req.op)
  filename : rec.filename.join.map encode = some req.filename
  bytes : rec.bytes = req.bytes.toNat
  rounds : rec.rounds = req.rounds
  forfeitedBytes : rec.forfeitedBytes = req.forfeitedBytes.toNat
  arrivalNs : rec.arrivalNs = req.arrivalNs
  startNs : rec.startNs = req.startNs
  finishNs : rec.finishNs = req.finishNs

theorem column_nodup {names : List Text} (nodup : names.Nodup) {i : Nat} {name : Text}
    (h : names[i]? = some name) (row : List Text) : column name names row = some row[i]? := by
  induction names generalizing i row with
  | nil => cases h
  | cons k names ih =>
    obtain ⟨fresh, nodup⟩ := List.nodup_cons.mp nodup
    unfold column
    cases i with
    | zero =>
      rw [List.getElem?_cons_zero] at h
      obtain rfl := Option.some.inj h
      rw [if_neg fresh, if_pos rfl, List.head?_eq_getElem?]
    | succ i =>
      rw [List.getElem?_cons_succ] at h
      rw [if_pos (List.mem_of_getElem? h), ih nodup h, List.getElem?_tail]

def headerFields : List Bytes :=
  [ascii "request_id", ascii "op", ascii "filename", ascii "bytes", ascii "rounds", ascii "forfeited_bytes",
   ascii "arrival_ns", ascii "start_ns", ascii "finish_ns"]

def countFields (req : Request) : List Bytes :=
  [decimal req.bytes.toNat, intDecimal req.counter, decimal req.forfeitedBytes.toNat, decimal req.arrivalNs,
   decimal req.startNs, decimal req.finishNs]

def rowFields (req : Request) : List Bytes :=
  decimal req.id :: opToString req.op :: req.filename :: countFields req

theorem writeRow_eq (req : Request) : writeRow req = [44].intercalate (rowFields req) ++ [10] := by
  unfold writeRow
  simp only [rowFields, countFields, List.intercalate_cons_cons, List.intercalate_singleton, List.append_assoc]
  rfl

theorem csvFile_eq (reqs : List Request) : csvFile reqs = Csv.file (headerFields :: reqs.map rowFields) := by
  have header : kHeader ++ [newline] = [44].intercalate headerFields ++ [10] := by decide
  have rows : reqs.flatMap writeRow = Csv.file (reqs.map rowFields) := by
    rw [Csv.file, List.flatMap_map]
    exact congrArg (List.flatMap · reqs) (funext writeRow_eq)
  rw [csvFile, header, rows]
  rfl

def plainByte (b : UInt8) : Bool :=
  b.toNat < 128 && decide (Csv.Inner (Char.ofNat b.toNat)) && Char.ofNat b.toNat != '"'

theorem plainByte_spec {bs : Bytes} (h : bs.all plainByte = true) :
    (∀ b ∈ bs, b.toNat < 128) ∧ ∀ c ∈ chars bs, Csv.Inner c ∧ c ≠ '"' := by
  have each : ∀ b ∈ bs, (b.toNat < 128 ∧ Csv.Inner (Char.ofNat b.toNat)) ∧ Char.ofNat b.toNat ≠ '"' := by
    simpa [plainByte] using h
  refine ⟨fun b hb => (each b hb).1.1, fun c hc => ?_⟩
  obtain ⟨b, hb, rfl⟩ := List.mem_map.mp hc
  exact ⟨(each b hb).1.2, (each b hb).2⟩

theorem readable_ascii {bs : Bytes} (h : bs.all plainByte = true) (short : bs.length ≤ 20) : Readable bs := by
  obtain ⟨low, plain⟩ := plainByte_spec h
  refine ⟨chars bs, (encode_chars low).symm, fun c hc => (plain c hc).1, fun quote => ?_, ?_⟩
  · exact (plain _ (List.mem_of_head? quote)).2 rfl
  · rw [chars, List.length_map]
    exact short.trans (by simp [fieldLimit])

theorem text_ascii {bs : Bytes} (h : bs.all plainByte = true) : text bs = chars bs := by
  have encoded := encode_chars (plainByte_spec h).1
  unfold text
  rw [← encoded, decode_encode, encoded]
  rfl

theorem chars_decimal (n : Nat) : ∃ ds : List Nat, chars (decimal n) = ds.map (fun d => Char.ofNat (48 + d)) ∧
    ds ≠ [] ∧ (∀ d ∈ ds, d < 10) ∧ ds.foldl (fun v d => 10 * v + d) 0 = n := by
  obtain ⟨ds, hds, hne, digits, value⟩ := decimal_digits n
  refine ⟨ds, ?_, hne, digits, value⟩
  rw [chars, hds, List.map_map]
  refine List.map_congr_left fun d hd => ?_
  simp only [Function.comp_apply, digit_toNat (digits d hd)]

theorem plainByte_digit : ∀ d < 10, plainByte ((48 + d).toUInt8) = true := by decide

theorem plainByte_decimal (n : Nat) : (decimal n).all plainByte = true := by
  obtain ⟨ds, hds, -, digits, -⟩ := decimal_digits n
  rw [hds, List.all_map, List.all_eq_true]
  exact fun d hd => plainByte_digit d (digits d hd)

theorem decimal_length {n : Nat} (h : n < 2 ^ 64) : (decimal n).length ≤ 20 := by
  unfold decimal
  split
  · decide
  · rw [List.length_map, List.length_reverse, Nat.digits_length_le_iff (by decide)]
    omega

theorem digits_decimal (n : Nat) : Csv.digits (chars (decimal n)) 0 false = some n := by
  obtain ⟨ds, hds, hne, digits, value⟩ := chars_decimal n
  rw [hds, digits_value hne digits, value]

theorem int_decimal {n : Nat} (h : n < 2 ^ 64) : Csv.int (text (decimal n)) = some (n : Int) := by
  obtain ⟨ds, hds, hne, digits, value⟩ := chars_decimal n
  have few : ds.length ≤ maxStrDigits := by
    have length := congrArg List.length hds
    rw [chars, List.length_map, List.length_map] at length
    exact length ▸ (decimal_length h).trans (by decide)
  rw [text_ascii (plainByte_decimal n), hds, int_digits hne digits few, value]

theorem readable_decimal {n : Nat} (h : n < 2 ^ 64) : Readable (decimal n) ∧ decimal n ≠ [] :=
  ⟨readable_ascii (plainByte_decimal n) (decimal_length h), decimal_ne_nil n⟩

theorem plainByte_op (op : Op) : (opToString op).all plainByte = true ∧ (opToString op).length = 3 := by
  cases op with
  | get => decide
  | put => decide

theorem readable_op (op : Op) : Readable (opToString op) ∧ opToString op ≠ [] := by
  obtain ⟨plain, three⟩ := plainByte_op op
  refine ⟨readable_ascii plain (by omega), fun empty => ?_⟩
  simp [empty] at three

theorem plainByte_header : headerFields.all (fun f => f.all plainByte && f.length ≤ 20 && f != []) = true := by
  decide

theorem header_spec {f : Bytes} (hf : f ∈ headerFields) : f.all plainByte = true ∧ f.length ≤ 20 ∧ f ≠ [] := by
  have each := List.all_eq_true.mp plainByte_header f hf
  simp only [Bool.and_eq_true, decide_eq_true_eq, bne_iff_ne] at each
  exact ⟨each.1.1, each.1.2, each.2⟩

theorem regular_header : Regular headerFields := by
  refine ⟨by decide, fun f hf => ?_⟩
  obtain ⟨plain, short, hne⟩ := header_spec hf
  exact ⟨readable_ascii plain short, hne⟩

/-- A request that the server has admitted, with numbers of the width of their types. -/
structure Counted (req : Request) : Prop where
  token : ∃ line, (parseRequestLine line).type ≠ .malformed ∧ (parseRequestLine line).filename = req.filename
  safe : isFilenameSafe req.filename = true
  id : req.id < 2 ^ 64
  rounds : req.rounds < 2 ^ 31
  arrivalNs : req.arrivalNs < 2 ^ 64
  startNs : req.startNs < 2 ^ 64
  finishNs : req.finishNs < 2 ^ 64

theorem Counted.counter {req : Request} (h : Counted req) : intDecimal req.counter = decimal req.rounds := by
  have same := (Request.counter_eq (r := req) rfl).mpr h.rounds
  rw [intDecimal, same, if_neg (Int.not_lt.mpr (Int.natCast_nonneg _)), Int.natAbs_natCast]

theorem Counted.regular {req : Request} (h : Counted req) (readable : Readable req.filename) :
    Regular (rowFields req) := by
  have named : req.filename ≠ [] := by
    intro empty
    have safe := h.safe
    rw [empty] at safe
    exact absurd safe (by decide)
  refine ⟨List.cons_ne_nil _ _, ?_⟩
  simp only [rowFields, countFields, h.counter, List.forall_mem_cons]
  exact ⟨readable_decimal h.id, readable_op req.op, ⟨readable, named⟩, readable_decimal req.bytes.toNat_lt,
    readable_decimal (h.rounds.trans (by decide)), readable_decimal req.forfeitedBytes.toNat_lt,
    readable_decimal h.arrivalNs, readable_decimal h.startNs, readable_decimal h.finishNs, nofun⟩

def names : List Text := headerFields.map chars

theorem text_header : headerFields.map text = names :=
  List.map_congr_left fun _ hf => text_ascii (header_spec hf).1

theorem column_names {i : Nat} {name : Text} (h : names[i]? = some name) (row : List Text) :
    column name names row = some row[i]? := column_nodup (by decide) h row

theorem toRecord_names (row : List Text) : toRecord names row = (do
    let number (i : Nat) : Option Int := row[i]?.bind Csv.int
    pure ⟨some row[0]?, some row[1]?, some row[2]?, ← number 3, ← number 4, ← number 5, ← number 6, ← number 7, ← number 8⟩) := by
  unfold toRecord
  simp only [column_names (i := 0) (show names[0]? = some "request_id".toList by decide),
    column_names (i := 1) (show names[1]? = some "op".toList by decide),
    column_names (i := 2) (show names[2]? = some "filename".toList by decide),
    column_names (i := 3) (show names[3]? = some "bytes".toList by decide),
    column_names (i := 4) (show names[4]? = some "rounds".toList by decide),
    column_names (i := 5) (show names[5]? = some "forfeited_bytes".toList by decide),
    column_names (i := 6) (show names[6]? = some "arrival_ns".toList by decide),
    column_names (i := 7) (show names[7]? = some "start_ns".toList by decide),
    column_names (i := 8) (show names[8]? = some "finish_ns".toList by decide)]
  rfl

theorem toRecord_filename {row : List Text} {rec : Record} (h : toRecord names row = some rec) :
    rec.filename = some row[2]? := by
  rw [toRecord_names] at h
  simp only [Option.bind_eq_bind, Option.bind_eq_some_iff, Option.pure_def, Option.some.injEq] at h
  obtain ⟨_, _, _, _, _, _, _, _, _, _, _, _, rfl⟩ := h
  rfl

theorem toRecord_row {req : Request} (counted : Counted req) (readable : Readable req.filename) :
    ∃ rec, toRecord names ((rowFields req).map text) = some rec ∧ rec.Same req := by
  rw [toRecord_names]
  simp only [rowFields, countFields, counted.counter, List.map_cons, List.getElem?_cons_succ,
    List.getElem?_cons_zero, Option.bind_some, int_decimal req.bytes.toNat_lt,
    int_decimal (counted.rounds.trans (by decide)), int_decimal req.forfeitedBytes.toNat_lt,
    int_decimal counted.arrivalNs, int_decimal counted.startNs, int_decimal counted.finishNs]
  refine ⟨_, rfl, ?_, ?_, rfl, rfl, rfl, rfl, rfl, rfl⟩
  · rw [Option.join_some, Option.map_some, ← (readable_op req.op).1.text.1]
  · rw [Option.join_some, Option.map_some, ← readable.text.1]

theorem loadRows_names {file : Bytes} {rows : List (List Text)} (h : Csv.read file = some (names :: rows)) :
    loadRows file = (rows.filter (· ≠ [])).mapM (toRecord names) := by
  rw [loadRows, h]
  simp only [Option.bind_eq_bind, Option.bind_some, dictReader, List.mapM_map]
  rfl

theorem mapM_spec {α β : Type} {f : α → Option β} {xs : List α} {ys : List β} (h : xs.mapM f = some ys) :
    List.Forall₂ (fun x y => f x = some y) xs ys := by
  induction xs generalizing ys with
  | nil =>
    obtain rfl := Option.some.inj h
    exact .nil
  | cons x xs ih =>
    rw [List.mapM_cons] at h
    obtain ⟨y, hy, h⟩ := Option.bind_eq_some_iff.mp h
    obtain ⟨ys', hys, h⟩ := Option.bind_eq_some_iff.mp h
    obtain rfl := Option.some.inj h
    exact .cons hy (ih hys)

theorem mapM_forall₂ {α β γ : Type} {f : β → Option γ} {same : α → γ → Prop} {g : α → β} {xs : List α}
    (h : ∀ x ∈ xs, ∃ y, f (g x) = some y ∧ same x y) :
    ∃ ys, (xs.map g).mapM f = some ys ∧ List.Forall₂ same xs ys := by
  induction xs with
  | nil => exact ⟨[], rfl, .nil⟩
  | cons x xs ih =>
    obtain ⟨⟨y, hy, sxy⟩, others⟩ := List.forall_mem_cons.mp h
    obtain ⟨ys, hys, all⟩ := ih others
    refine ⟨y :: ys, ?_, .cons sxy all⟩
    rw [List.map_cons, List.mapM_cons, hy, hys]
    rfl

theorem loadRows_readable {reqs : List Request} (counted : ∀ req ∈ reqs, Counted req)
    (readable : ∀ req ∈ reqs, Readable req.filename) :
    ∃ recs, loadRows (csvFile reqs) = some recs ∧ List.Forall₂ (fun req rec => rec.Same req) reqs recs := by
  have regular : ∀ row ∈ headerFields :: reqs.map rowFields, Regular row := by
    rw [List.forall_mem_cons, List.forall_mem_map]
    exact ⟨regular_header, fun req hreq => (counted req hreq).regular (readable req hreq)⟩
  have read := read_regular regular
  rw [← csvFile_eq, List.map_cons, text_header, List.map_map] at read
  rw [loadRows_names read, List.filter_eq_self.mpr]
  · exact mapM_forall₂ fun req hreq => toRecord_row (counted req hreq) (readable req hreq)
  · intro row hrow
    obtain ⟨req, -, rfl⟩ := List.mem_map.mp hrow
    simp [rowFields]

theorem csvFile_cut (good : List Request) (bad : Request) (more : List Request) : ∃ rest,
    csvFile (good ++ bad :: more) = Csv.file (headerFields :: good.map rowFields) ++
      [44].intercalate [decimal bad.id, opToString bad.op] ++ 44 :: (bad.filename ++ 44 :: rest) := by
  refine ⟨[44].intercalate (countFields bad) ++ 10 :: Csv.file (more.map rowFields), ?_⟩
  rw [csvFile_eq, List.map_append, List.map_cons, Csv.file, ← List.cons_append, List.flatMap_append,
    List.flatMap_cons]
  simp [Csv.file, rowFields, countFields]

theorem loadRows_unreadable {good : List Request} {bad : Request} (more : List Request)
    (counted : ∀ req ∈ good ++ bad :: more, Counted req) (readable : ∀ req ∈ good, Readable req.filename)
    (unreadable : ¬ Readable bad.filename) {recs : List Record}
    (loaded : loadRows (csvFile (good ++ bad :: more)) = some recs) :
    ¬ List.Forall₂ (fun req rec => rec.Same req) (good ++ bad :: more) recs := by
  intro same
  obtain ⟨rest, cut⟩ := csvFile_cut good bad more
  have regular : ∀ row ∈ headerFields :: good.map rowFields, Regular row := by
    rw [List.forall_mem_cons, List.forall_mem_map]
    exact ⟨regular_header, fun req hreq =>
      (counted req (List.mem_append_left _ hreq)).regular (readable req hreq)⟩
  have front : Regular [decimal bad.id, opToString bad.op] := by
    refine ⟨List.cons_ne_nil _ _, ?_⟩
    have hid := (counted bad (by simp)).id
    simpa using ⟨readable_decimal hid, readable_op bad.op⟩
  have nonempty : ∀ row ∈ (good.map rowFields).map (·.map text), decide (row ≠ []) = true := by
    intro row hrow
    obtain ⟨fields, hfields, rfl⟩ := List.mem_map.mp hrow
    simpa using (regular fields (List.mem_cons_of_mem _ hfields)).nonempty
  obtain ⟨texts, read, -⟩ := Option.bind_eq_some_iff.mp loaded
  obtain ⟨tail, htexts, changed⟩ := read_unreadable regular front unreadable rest (cut ▸ read)
  rw [List.map_cons, text_header, List.cons_append] at htexts
  rw [loadRows_names (htexts ▸ read), List.filter_append, List.filter_eq_self.mpr nonempty] at loaded
  -- what stands for the bad row is the first record behind the good ones
  have loaded := List.forall₂_drop good.length (mapM_spec loaded)
  have same := List.forall₂_drop good.length same
  rw [List.drop_left] at same
  rw [List.drop_left' (by simp)] at loaded
  obtain ⟨rec, recs', hsame, -, hrecs⟩ := List.forall₂_cons_left_iff.mp same
  rw [hrecs] at loaded
  cases tail with
  | nil => cases loaded
  | cons r rs =>
    obtain ⟨x, ⟨fields, hr⟩, differs⟩ := changed r rs rfl
    have kept : r ≠ [] := by
      rw [← hr]
      simp
    rw [List.filter_cons_of_pos (by simpa using kept)] at loaded
    have filename := toRecord_filename (List.forall₂_cons.mp loaded).1
    rw [← hr] at filename
    have hname := hsame.filename
    rw [filename] at hname
    exact differs (Option.some.inj hname)

/-- The metrics read back if and only if every name is a text that the reader takes as it is. -/
theorem loadRows_csvFile (reqs : List Request) (counted : ∀ req ∈ reqs, Counted req) :
    (∃ recs, loadRows (csvFile reqs) = some recs ∧ List.Forall₂ (fun req rec => rec.Same req) reqs recs) ↔
      ∀ req ∈ reqs, ∃ name, req.filename = encode name ∧ Plain name := by
  constructor
  · rintro ⟨recs, loaded, same⟩
    by_contra unreadable
    obtain ⟨good, bad, more, rfl, readable, hbad⟩ := exists_break unreadable
    exact loadRows_unreadable more counted readable hbad loaded same
  · exact loadRows_readable counted

def sample (filename : Bytes) : Request :=
  { id := 1, op := .get, filename := filename, bytes := 5, rounds := 1, arrivalNs := 1, startNs := 2, finishNs := 3 }

theorem loadRows_csvFile_report : ∃ recs, loadRows (csvFile [sample (ascii "report.txt")]) = some recs ∧
    List.Forall₂ (fun req rec => rec.Same req) [sample (ascii "report.txt")] recs := by
  have counted : ∀ req ∈ [sample (ascii "report.txt")], Counted req := by
    rw [List.forall_mem_singleton]
    exact ⟨⟨ascii "GET report.txt", by decide, by decide⟩, by decide, by decide, by decide, by decide, by decide,
      by decide⟩
  refine (loadRows_csvFile _ counted).mpr ?_
  rw [List.forall_mem_singleton]
  exact readable_ascii (by decide) (by decide)

theorem loadRows_csvFile_comma : Counted (sample (ascii "a,b")) ∧
    ¬ ∃ recs, loadRows (csvFile [sample (ascii "a,b")]) = some recs ∧
      List.Forall₂ (fun req rec => rec.Same req) [sample (ascii "a,b")] recs := by
  have counted : Counted (sample (ascii "a,b")) :=
    ⟨⟨ascii "GET a,b", by decide, by decide⟩, by decide, by decide, by decide, by decide, by decide, by decide⟩
  refine ⟨counted, ?_⟩
  rintro ⟨recs, loaded, same⟩
  have first : loadRows (csvFile ([] ++ [sample (ascii "a,b")])) = some recs := loaded
  refine loadRows_unreadable [] ?_ (List.forall_mem_nil _) ?_ first same
  · rw [List.nil_append, List.forall_mem_singleton]
    exact counted
  · rintro ⟨name, encoded, plain⟩
    have chars : name = ['a', ',', 'b'] := encode_inj (encoded.symm.trans (by decide))
    exact (plain.inner ',' (by simp [chars])).1 rfl

end LinkScheduling
