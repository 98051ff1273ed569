import LinkScheduling.Slice

/-! The command lines of the server and of the client, with `strtol` and `strtoull` of the C library
in base ten. These skip blanks and take a sign; `strtoull` negates modulo `2^64`, and both of them
saturate. An argument holds no NUL, so the end of the list is the end of the C string. -/

namespace LinkScheduling

def isBlank (c : UInt8) : Bool := c = 32 || (9 ≤ c && c ≤ 13)

def plus : UInt8 := 43
def minus : UInt8 := 45

structure Subject where
  negative : Bool
  digits : Bytes
  rest : Bytes

def scan (s : Bytes) : Subject :=
  match s.dropWhile isBlank with
  | [] => ⟨false, [], []⟩
  | c :: t =>
    if c = minus then ⟨true, t.takeWhile isDigit, t.dropWhile isDigit⟩
    else if c = plus then ⟨false, t.takeWhile isDigit, t.dropWhile isDigit⟩
    else ⟨false, (c :: t).takeWhile isDigit, (c :: t).dropWhile isDigit⟩

/-- The value, and what `end` points to: without digits nothing is converted. -/
def strtoull (s : Bytes) : UInt64 × Bytes :=
  let x := scan s
  if x.digits = [] then (0, s)
  else
    let n := digitsValue x.digits
    (if 2 ^ 64 ≤ n then 18446744073709551615 else if x.negative then -UInt64.ofNat n else UInt64.ofNat n, x.rest)

/-- The value, and what `end` points to: without digits nothing is converted. -/
def strtol (s : Bytes) : Int × Bytes :=
  let x := scan s
  if x.digits = [] then (0, s)
  else
    let n := digitsValue x.digits
    (if x.negative then max (-2 ^ 63) (-n) else min (2 ^ 63 - 1) n, x.rest)

inductive Denotes : Bytes → Int → Prop
  | nonneg {blanks sign digits : Bytes} : blanks.all isBlank = true → sign = [] ∨ sign = [plus] →
      digits ≠ [] → digits.all isDigit = true → Denotes (blanks ++ sign ++ digits) (digitsValue digits)
  | neg {blanks digits : Bytes} : blanks.all isBlank = true → digits ≠ [] → digits.all isDigit = true →
      Denotes (blanks ++ [minus] ++ digits) (-digitsValue digits)

section Scan
variable {s blanks sign digits : Bytes} {n : Int}

theorem isBlank_of_isDigit {c : UInt8} (h : isDigit c = true) : isBlank c = false ∧ c ≠ minus ∧ c ≠ plus := by
  simp only [isDigit, Bool.and_eq_true, decide_eq_true_eq, UInt8.le_iff_toNat_le] at h
  have lower : 48 ≤ c.toNat := h.1
  refine ⟨?_, ?_, ?_⟩
  · rw [isBlank, Bool.or_eq_false_iff, Bool.and_eq_false_iff]
    refine ⟨decide_eq_false fun same => ?_, .inr (decide_eq_false fun le => ?_)⟩
    · rw [same] at lower
      exact absurd lower (by decide)
    · have upper : c.toNat ≤ 13 := UInt8.le_iff_toNat_le.mp le
      omega
  · rintro rfl
    exact absurd lower (by decide)
  · rintro rfl
    exact absurd lower (by decide)

theorem dropWhile_blanks (hb : blanks.all isBlank = true) (t : Bytes) :
    (blanks ++ t).dropWhile isBlank = t.dropWhile isBlank :=
  List.dropWhile_append_of_pos (List.all_eq_true.mp hb)

theorem takeWhile_digits (hd : digits.all isDigit = true) :
    digits.takeWhile isDigit = digits ∧ digits.dropWhile isDigit = [] := by
  have all := List.all_eq_true.mp hd
  exact ⟨List.takeWhile_eq_self_iff.mpr all, List.dropWhile_eq_nil_iff.mpr all⟩

theorem scan_nonneg (hb : blanks.all isBlank = true) (hs : sign = [] ∨ sign = [plus]) (hne : digits ≠ [])
    (hd : digits.all isDigit = true) : scan (blanks ++ sign ++ digits) = ⟨false, digits, []⟩ := by
  obtain ⟨taken, dropped⟩ := takeWhile_digits hd
  rw [List.append_assoc, scan, dropWhile_blanks hb]
  rcases hs with rfl | rfl
  · obtain ⟨c, t, rfl⟩ := List.exists_cons_of_ne_nil hne
    obtain ⟨visible, notMinus, notPlus⟩ := isBlank_of_isDigit (List.all_eq_true.mp hd c List.mem_cons_self)
    rw [List.nil_append, List.dropWhile_cons_of_neg (by simp [visible])]
    simp only [if_neg notMinus, if_neg notPlus, taken, dropped]
  · rw [List.singleton_append, List.dropWhile_cons_of_neg (by decide)]
    simp only [if_neg (show plus ≠ minus by decide), if_true, taken, dropped]

theorem scan_neg (hb : blanks.all isBlank = true) (hd : digits.all isDigit = true) :
    scan (blanks ++ [minus] ++ digits) = ⟨true, digits, []⟩ := by
  obtain ⟨taken, dropped⟩ := takeWhile_digits hd
  rw [List.append_assoc, scan, dropWhile_blanks hb, List.singleton_append,
    List.dropWhile_cons_of_neg (by decide)]
  simp only [if_true, taken, dropped]

def Subject.value (x : Subject) : Int := if x.negative then -digitsValue x.digits else digitsValue x.digits

theorem denotes_iff : Denotes s n ↔ (scan s).digits ≠ [] ∧ (scan s).rest = [] ∧ n = (scan s).value := by
  constructor
  · rintro (⟨hb, hs, hne, hd⟩ | ⟨hb, hne, hd⟩)
    · rw [scan_nonneg hb hs hne hd]
      exact ⟨hne, rfl, rfl⟩
    · rw [scan_neg hb hd]
      exact ⟨hne, rfl, rfl⟩
  · rintro ⟨some_, ended, rfl⟩
    have whole := List.takeWhile_append_dropWhile (p := isBlank) (l := s)
    have blank : (s.takeWhile isBlank).all isBlank = true := List.all_takeWhile
    generalize s.takeWhile isBlank = blanks at whole blank
    unfold scan at some_ ended ⊢
    cases tail : s.dropWhile isBlank with
    | nil =>
      rw [tail] at some_
      exact absurd rfl some_
    | cons c t =>
      rw [tail] at some_ ended whole
      simp only at some_ ended ⊢
      have digits : ∀ l : Bytes, l.dropWhile isDigit = [] → l.takeWhile isDigit = l ∧ l.all isDigit = true := by
        intro l hl
        have all := List.dropWhile_eq_nil_iff.mp hl
        exact ⟨List.takeWhile_eq_self_iff.mpr all, List.all_eq_true.mpr all⟩
      rw [← whole]
      split at some_
      · rename_i signed
        rw [if_pos signed] at ended ⊢
        obtain ⟨taken, all⟩ := digits t ended
        simp only [taken] at some_
        simp only [Subject.value, taken, signed, if_true]
        have denotes := Denotes.neg blank some_ all
        rwa [List.append_assoc] at denotes
      · rename_i unsigned
        split at some_
        · rename_i signed
          rw [if_neg unsigned, if_pos signed] at ended ⊢
          obtain ⟨taken, all⟩ := digits t ended
          simp only [taken] at some_
          simp only [Subject.value, taken, signed]
          have denotes := Denotes.nonneg blank (.inr rfl) some_ all
          rwa [List.append_assoc] at denotes
        · rename_i bare
          rw [if_neg unsigned, if_neg bare] at ended ⊢
          obtain ⟨taken, all⟩ := digits (c :: t) ended
          simp only [taken] at some_
          simp only [Subject.value, taken]
          have denotes := Denotes.nonneg blank (.inl rfl) some_ all
          rwa [List.append_nil] at denotes

theorem ends_iff {rest : Bytes} (h : rest = if (scan s).digits = [] then s else (scan s).rest) :
    ¬ (rest = s ∨ rest ≠ []) ↔ ∃ n, Denotes s n := by
  simp only [denotes_iff, exists_eq_right, exists_and_left]
  by_cases none : (scan s).digits = []
  · rw [if_pos none] at h
    simp [h, none]
  · rw [if_neg none] at h
    have some_ : s ≠ [] := by
      rintro rfl
      exact none rfl
    rw [not_or, not_not, h]
    constructor
    · rintro ⟨-, ended⟩
      exact ⟨none, ended⟩
    · rintro ⟨-, ended⟩
      exact ⟨fun same => some_ (same.symm.trans ended), ended⟩

theorem strtoull_ends (s : Bytes) : ¬ ((strtoull s).2 = s ∨ (strtoull s).2 ≠ []) ↔ ∃ n, Denotes s n := by
  refine ends_iff ?_
  rw [strtoull]
  split <;> rfl

theorem strtol_ends (s : Bytes) : ¬ ((strtol s).2 = s ∨ (strtol s).2 ≠ []) ↔ ∃ n, Denotes s n := by
  refine ends_iff ?_
  rw [strtol]
  split <;> rfl

theorem strtoull_toNat (h : Denotes s n) : (strtoull s).1.toNat =
    if 2 ^ 64 ≤ n.natAbs then 2 ^ 64 - 1 else if n < 0 then 2 ^ 64 - n.natAbs else n.natAbs := by
  obtain ⟨some_, -, rfl⟩ := denotes_iff.mp h
  unfold strtoull Subject.value
  rw [if_neg some_]
  obtain ⟨negative, digits, rest⟩ := scan s
  have size := UInt64.toNat_ofNat' (n := digitsValue digits)
  cases negative with
  | true =>
    simp only [if_true, Int.natAbs_neg, Int.natAbs_natCast]
    split
    · rfl
    · have top : UInt64.size = 2 ^ 64 := rfl
      rw [UInt64.toNat_neg, size, top]
      split <;> omega
  | false =>
    simp only [Bool.false_eq_true, if_false, Int.natAbs_natCast]
    split
    · rfl
    · rw [size, if_neg (by omega)]
      omega

theorem strtol_eq (h : Denotes s n) : (strtol s).1 = max (-2 ^ 63) (min (2 ^ 63 - 1) n) := by
  obtain ⟨some_, -, rfl⟩ := denotes_iff.mp h
  simp only [strtol, if_neg some_, Subject.value]
  split <;> omega

end Scan

structure Args where
  sched : Bytes := []
  haveSched : Bool := false
  hasQuantum : Bool := false
  quantum : UInt64 := 0
  fileDir : Bytes := []
  haveFile : Bool := false
  pLines : Int := 1
  configPath : Bytes := ascii "config.json"
  metricsOut : Bytes := ascii "metrics.csv"

/-- `static_cast<int>` of a `long`. -/
def toInt32 (n : Int) : Int := (BitVec.ofInt 32 n).toInt

def quantumFlag (v : Bytes) : Except Bytes UInt64 :=
  let (q, rest) := strtoull v
  if rest = v ∨ rest ≠ [] ∨ q = 0 ∨ v.head? = some minus then
    .error (ascii "--quantum must be a positive integer (bytes per round)")
  else .ok q

def pFlag (v : Bytes) : Except Bytes Int :=
  let (n, rest) := strtol v
  if rest = v ∨ rest ≠ [] ∨ n < 1 then .error (ascii "--p must be a positive integer (lines per write)")
  else .ok (toInt32 n)

def inQuotes (s : Bytes) : Bytes := 39 :: s ++ [39]

def unknownFlag (a : Bytes) : Bytes := ascii "unknown flag " ++ inQuotes a

def serverFlag (args : Args) (a v : Bytes) : Except Bytes Args :=
  if a = ascii "--sched" then .ok { args with sched := v, haveSched := true }
  else if a = ascii "--quantum" then (quantumFlag v).map fun q => { args with quantum := q, hasQuantum := true }
  else if a = ascii "--file" then .ok { args with fileDir := v, haveFile := true }
  else if a = ascii "--p" then (pFlag v).map fun n => { args with pLines := n }
  else if a = ascii "--config" then .ok { args with configPath := v }
  else if a = ascii "--metrics-out" then .ok { args with metricsOut := v }
  else .error (unknownFlag a)

def serverFlags : List Bytes :=
  [ascii "--sched", ascii "--quantum", ascii "--file", ascii "--p", ascii "--config", ascii "--metrics-out"]

/-- The loop over the arguments: every known flag takes the next argument as its value. -/
def readFlags {σ : Type} (flag : σ → Bytes → Bytes → Except Bytes σ) (known : List Bytes) :
    List Bytes → σ → Except Bytes σ
  | [], s => .ok s
  | [a], _ => .error (if a ∈ known then ascii "missing value for " ++ a else unknownFlag a)
  | a :: v :: rest, s =>
    match flag s a v with
    | .error e => .error e
    | .ok s => readFlags flag known rest s

def policies : List Bytes := [ascii "fcfs", ascii "sjf", ascii "rr", ascii "drr"]

/-- What is checked after the loop; `isDir` tells the existing directories. -/
def checkArgs (isDir : Bytes → Bool) (args : Args) : Except Bytes Args :=
  let needsQuantum := args.sched = ascii "rr" ∨ args.sched = ascii "drr"
  if args.haveSched = false then .error (ascii "missing required flag --sched")
  else if args.sched ∉ policies then .error (ascii "--sched must be one of fcfs, sjf, rr, drr")
  else if args.haveFile = false then .error (ascii "missing required flag --file")
  else if needsQuantum ∧ args.hasQuantum = false then
    .error (ascii "--quantum is required when --sched is rr or drr")
  else if ¬ needsQuantum ∧ args.hasQuantum = true then
    .error (ascii "--quantum is not allowed with --sched fcfs or sjf")
  else if isDir args.fileDir = false then
    .error (ascii "--file " ++ inQuotes args.fileDir ++ ascii " is not an existing directory")
  else .ok args

def parseArgs (isDir : Bytes → Bool) (argv : List Bytes) : Except Bytes Args :=
  (readFlags serverFlag serverFlags argv {}).bind (checkArgs isDir)

def parsePolicy (name : Bytes) : Policy :=
  if name = ascii "sjf" then .sjf
  else if name = ascii "rr" then .rr
  else if name = ascii "drr" then .drr
  else .fcfs

def Args.sliceParams (args : Args) : SliceParams where
  policy := parsePolicy args.sched
  quantum := args.quantum
  pLines := args.pLines

structure ClientArgs where
  op : Bytes
  target : Bytes
  configPath : Bytes := ascii "config.json"
  hasRequests : Bool := false
  requests : UInt64 := 0

def requestsFlag (v : Bytes) : Except Bytes UInt64 :=
  let (n, rest) := strtoull v
  if rest = v ∨ rest ≠ [] then .error (ascii "--requests must be a non-negative integer") else .ok n

def clientFlag (args : ClientArgs) (a v : Bytes) : Except Bytes ClientArgs :=
  if a = ascii "--config" then .ok { args with configPath := v }
  else if a = ascii "--requests" then (requestsFlag v).map fun n => { args with requests := n, hasRequests := true }
  else .error (unknownFlag a)

def checkClient (args : ClientArgs) : Except Bytes ClientArgs :=
  if args.op = ascii "load" ∧ args.hasRequests = false then .error (ascii "--requests is required for load")
  else if args.op ≠ ascii "load" ∧ args.hasRequests = true then .error (ascii "--requests is only valid with load")
  else .ok args

def usage : Bytes :=
  ascii "usage: client <put <local-path>|get <name>|load <workload-dir> --requests N> [--config <path>]"

def parseClient : List Bytes → Except Bytes ClientArgs
  | op :: target :: argv =>
    (readFlags clientFlag [ascii "--config", ascii "--requests"] argv { op := op, target := target }).bind checkClient
  | _ => .error usage

/-- The value that counts for a flag is the last one. -/
def given (flag : Bytes) : List Bytes → Option Bytes
  | a :: v :: rest => (given flag rest).or (if a = flag then some v else none)
  | _ => none

theorem readFlags_given {σ α : Type} {flag : σ → Bytes → Bytes → Except Bytes σ} {known : List Bytes} {f : Bytes}
    {read : Bytes → Except Bytes α} {field : σ → α}
    {argv : List Bytes} {s s' : σ} (h : readFlags flag known argv s = .ok s')
    (one : ∀ {s a v s'}, flag s a v = .ok s' → if a = f then read v = .ok (field s') else field s' = field s) :
    match given f argv with
    | some v => read v = .ok (field s')
    | none => field s' = field s := by
  induction argv, s using readFlags.induct flag with
  | case1 s =>
    cases h
    rfl
  | case2 a s => cases h
  | case3 a v rest s e failed =>
    rw [readFlags, failed] at h
    cases h
  | case4 a v rest s u first ih =>
    rw [readFlags, first] at h
    have later := ih h
    have here := one first
    rw [given]
    cases hv : given f rest with
    | some w =>
      rw [hv] at later
      exact later
    | none =>
      rw [hv] at later
      split at here
      · rename_i same
        rw [if_pos same]
        change read v = _
        rw [here]
        exact congrArg Except.ok later.symm
      · rename_i other
        rw [if_neg other]
        exact later.trans here

theorem map_ok {α β : Type} {x : Except Bytes α} {f : α → β} {b : β} (h : x.map f = .ok b) :
    ∃ a, x = .ok a ∧ f a = b := by
  cases x with
  | error e => cases h
  | ok a => exact ⟨a, rfl, Except.ok.inj h⟩

theorem serverFlag_quantum {s s' : Args} {a v : Bytes} (h : serverFlag s a v = .ok s') :
    if a = ascii "--quantum" then quantumFlag v = .ok s'.quantum else s'.quantum = s.quantum := by
  unfold serverFlag at h
  by_cases quantum : a = ascii "--quantum"
  · subst quantum
    rw [if_neg (by decide), if_pos rfl] at h
    obtain ⟨q, hq, rfl⟩ := map_ok h
    rw [if_pos rfl, hq]
  · rw [if_neg quantum]
    rw [if_neg quantum] at h
    repeat' split at h
    all_goals first
      | (cases h <;> rfl)
      | (obtain ⟨n, -, rfl⟩ := map_ok h; rfl)

theorem serverFlag_p {s s' : Args} {a v : Bytes} (h : serverFlag s a v = .ok s') :
    if a = ascii "--p" then pFlag v = .ok s'.pLines else s'.pLines = s.pLines := by
  unfold serverFlag at h
  by_cases p : a = ascii "--p"
  · subst p
    rw [if_neg (by decide), if_neg (by decide), if_neg (by decide), if_pos rfl] at h
    obtain ⟨n, hn, rfl⟩ := map_ok h
    rw [if_pos rfl, hn]
  · rw [if_neg p]
    rw [if_neg p] at h
    repeat' split at h
    all_goals first
      | (cases h <;> rfl)
      | (obtain ⟨n, -, rfl⟩ := map_ok h; rfl)

theorem clientFlag_requests {s s' : ClientArgs} {a v : Bytes} (h : clientFlag s a v = .ok s') :
    if a = ascii "--requests" then requestsFlag v = .ok s'.requests else s'.requests = s.requests := by
  unfold clientFlag at h
  by_cases requests : a = ascii "--requests"
  · subst requests
    rw [if_neg (by decide), if_pos rfl] at h
    obtain ⟨n, hn, rfl⟩ := map_ok h
    rw [if_pos rfl, hn]
  · rw [if_neg requests]
    rw [if_neg requests] at h
    split at h <;> cases h
    rfl

theorem checkArgs_ok {isDir : Bytes → Bool} {args args' : Args} (h : checkArgs isDir args = .ok args') : args' = args := by
  simp only [checkArgs] at h
  repeat' split at h
  all_goals cases h <;> rfl

theorem checkClient_ok {args args' : ClientArgs} (h : checkClient args = .ok args') : args' = args := by
  simp only [checkClient] at h
  repeat' split at h
  all_goals cases h <;> rfl

theorem bind_checked {σ : Type} {x : Except Bytes σ} {check : σ → Except Bytes σ} {b : σ}
    (same : ∀ a b, check a = .ok b → b = a) (h : x.bind check = .ok b) : x = .ok b := by
  cases x with
  | error e => cases h
  | ok a => rw [same a b h]

theorem parseArgs_ok {isDir : Bytes → Bool} {argv : List Bytes} {args : Args} (h : parseArgs isDir argv = .ok args) :
    readFlags serverFlag serverFlags argv {} = .ok args :=
  bind_checked (fun _ _ => checkArgs_ok) h

/-- A `--quantum` that the server accepts is positive, and is the quantum of its slices. -/
def QuantumExact (v : Bytes) : Prop := ∀ isDir argv args, parseArgs isDir argv = .ok args →
  given (ascii "--quantum") argv = some v → ∃ n, Denotes v n ∧ 0 < n ∧ (args.sliceParams.quantum.toNat : Int) = n

/-- A `--p` that the server accepts is positive, and is the number of lines that go into a write. -/
def LinesExact (v : Bytes) : Prop := ∀ isDir argv args, parseArgs isDir argv = .ok args →
  given (ascii "--p") argv = some v → ∃ n, Denotes v n ∧ 0 < n ∧ args.sliceParams.linesPerWrite = n

/-- A `--requests` that the client accepts is not negative, and is the number of its requests. -/
def RequestsExact (v : Bytes) : Prop := ∀ op target argv args, parseClient (op :: target :: argv) = .ok args →
  given (ascii "--requests") argv = some v → ∃ n, Denotes v n ∧ 0 ≤ n ∧ (args.requests.toNat : Int) = n

section Exact
variable {v : Bytes}

theorem denotes_unique {n m : Int} (h : Denotes v n) (h' : Denotes v m) : n = m :=
  (denotes_iff.mp h).2.2.trans (denotes_iff.mp h').2.2.symm

theorem quantumFlag_ok_iff {q : UInt64} : quantumFlag v = .ok q ↔
    (∃ n, Denotes v n) ∧ (strtoull v).1 ≠ 0 ∧ v.head? ≠ some minus ∧ q = (strtoull v).1 := by
  rw [← strtoull_ends]
  simp only [quantumFlag]
  split
  · rename_i bad
    constructor
    · intro h
      cases h
    · rintro ⟨ended, pos, signless, -⟩
      grind
  · rename_i good
    grind

theorem pFlag_ok_iff {p : Int} : pFlag v = .ok p ↔
    (∃ n, Denotes v n) ∧ 1 ≤ (strtol v).1 ∧ p = toInt32 (strtol v).1 := by
  rw [← strtol_ends]
  simp only [pFlag]
  split
  · rename_i bad
    constructor
    · intro h
      cases h
    · rintro ⟨ended, pos, -⟩
      grind
  · rename_i good
    grind

theorem requestsFlag_ok_iff {n : UInt64} : requestsFlag v = .ok n ↔ (∃ n, Denotes v n) ∧ n = (strtoull v).1 := by
  rw [← strtoull_ends]
  simp only [requestsFlag]
  split
  · rename_i bad
    constructor
    · intro h
      cases h
    · rintro ⟨ended, -⟩
      exact absurd bad ended
  · rename_i good
    constructor
    · intro h
      exact ⟨good, (Except.ok.inj h).symm⟩
    · rintro ⟨-, rfl⟩
      rfl

theorem Denotes.nonpos {n : Int} (h : Denotes v n) (signed : v.head? = some minus) : n ≤ 0 := by
  obtain ⟨-, -, rfl⟩ := denotes_iff.mp h
  cases v with
  | nil => cases signed
  | cons c t =>
    cases Option.some.inj signed
    have negative : (scan (minus :: t)).negative = true := by
      rw [scan, List.dropWhile_cons_of_neg (by decide)]
      rfl
    rw [Subject.value, if_pos negative]
    omega

theorem readFlags_cons {σ : Type} {flag : σ → Bytes → Bytes → Except Bytes σ} (known : List Bytes) {a : Bytes}
    (rest : List Bytes) {s s' : σ} (h : flag s a v = .ok s') :
    readFlags flag known (a :: v :: rest) s = readFlags flag known rest s' := by
  rw [readFlags, h]

theorem parseArgs_quantum {q : UInt64} (h : quantumFlag v = .ok q) : ∃ args, parseArgs (fun _ => true)
    [ascii "--sched", ascii "rr", ascii "--file", ascii "d", ascii "--quantum", v] = .ok args ∧ args.quantum = q := by
  have flag : ∀ args, serverFlag args (ascii "--quantum") v = .ok { args with quantum := q, hasQuantum := true } := by
    intro args
    change (quantumFlag v).map _ = _
    rw [h]
    rfl
  have first : ∀ args, serverFlag args (ascii "--sched") (ascii "rr") =
      .ok { args with sched := ascii "rr", haveSched := true } := fun _ => rfl
  have second : ∀ args, serverFlag args (ascii "--file") (ascii "d") =
      .ok { args with fileDir := ascii "d", haveFile := true } := fun _ => rfl
  have checked : ∀ args : Args, args.haveSched = true → args.sched = ascii "rr" → args.haveFile = true →
      args.hasQuantum = true → checkArgs (fun _ => true) args = .ok args := by
    intro args sched name file quantum
    simp [checkArgs, sched, name, file, quantum, policies]
  rw [parseArgs, readFlags_cons _ _ (first _), readFlags_cons _ _ (second _), readFlags_cons _ _ (flag _), readFlags,
    Except.bind]
  exact ⟨_, checked _ rfl rfl rfl rfl, rfl⟩

theorem parseArgs_p {n : Int} (h : pFlag v = .ok n) : ∃ args, parseArgs (fun _ => true)
    [ascii "--sched", ascii "fcfs", ascii "--file", ascii "d", ascii "--p", v] = .ok args ∧ args.pLines = n := by
  have flag : ∀ args, serverFlag args (ascii "--p") v = .ok { args with pLines := n } := by
    intro args
    change (pFlag v).map _ = _
    rw [h]
    rfl
  have first : ∀ args, serverFlag args (ascii "--sched") (ascii "fcfs") =
      .ok { args with sched := ascii "fcfs", haveSched := true } := fun _ => rfl
  have second : ∀ args, serverFlag args (ascii "--file") (ascii "d") =
      .ok { args with fileDir := ascii "d", haveFile := true } := fun _ => rfl
  have checked : ∀ args : Args, args.haveSched = true → args.sched = ascii "fcfs" → args.haveFile = true →
      args.hasQuantum = false → checkArgs (fun _ => true) args = .ok args := by
    intro args sched name file quantum
    have rr : ascii "fcfs" ≠ ascii "rr" := by decide
    have drr : ascii "fcfs" ≠ ascii "drr" := by decide
    simp [checkArgs, sched, name, file, quantum, policies, rr, drr]
  rw [parseArgs, readFlags_cons _ _ (first _), readFlags_cons _ _ (second _), readFlags_cons _ _ (flag _), readFlags,
    Except.bind]
  exact ⟨_, checked _ rfl rfl rfl rfl, rfl⟩

theorem parseClient_requests {n : UInt64} (h : requestsFlag v = .ok n) : ∃ args,
    parseClient [ascii "load", ascii "d", ascii "--requests", v] = .ok args ∧ args.requests = n := by
  have flag : ∀ args, clientFlag args (ascii "--requests") v = .ok { args with requests := n, hasRequests := true } := by
    intro args
    change (requestsFlag v).map _ = _
    rw [h]
    rfl
  simp only [parseClient]
  rw [readFlags_cons _ _ (flag _)]
  exact ⟨_, rfl, rfl⟩

theorem quantumExact_iff : QuantumExact v ↔ ∀ n, Denotes v n → n < 2 ^ 64 ∧ (n < 0 → v.head? = some minus) := by
  constructor
  · intro exact_ n denotes
    have value := strtoull_toNat denotes
    cases flag : quantumFlag v with
    | ok q =>
      obtain ⟨args, parsed, quantum⟩ := parseArgs_quantum flag
      obtain ⟨m, denotes', pos, same⟩ := exact_ _ _ _ parsed (by rfl)
      obtain rfl := denotes_unique denotes denotes'
      have top := args.sliceParams.quantum.toNat_lt
      omega
    | error e =>
      by_cases signed : v.head? = some minus
      · have nonpos := denotes.nonpos signed
        exact ⟨by omega, fun _ => signed⟩
      · have none : (strtoull v).1 = 0 := by
          by_contra pos
          have ok := quantumFlag_ok_iff.mpr ⟨⟨n, denotes⟩, pos, signed, rfl⟩
          cases flag.symm.trans ok
        rw [none] at value
        change 0 = _ at value
        split at value
        · omega
        · split at value <;> exact ⟨by omega, by omega⟩
  · intro small isDir argv args parsed last
    have read := readFlags_given (parseArgs_ok parsed) serverFlag_quantum
    rw [last] at read
    obtain ⟨⟨n, denotes⟩, pos, signless, same⟩ := quantumFlag_ok_iff.mp read
    obtain ⟨below, signed⟩ := small n denotes
    have value := strtoull_toNat denotes
    have nonneg : 0 ≤ n := by
      by_contra neg
      exact signless (signed (by omega))
    rw [← same, if_neg (by omega), if_neg (by omega)] at value
    have some_ : args.quantum.toNat ≠ 0 := fun none => pos (same ▸ UInt64.toNat_inj.mp none)
    exact ⟨n, denotes, by omega, show (args.quantum.toNat : Int) = n by omega⟩

theorem toInt32_eq (n : Int) : toInt32 n = n.bmod (2 ^ 32) := BitVec.toInt_ofInt n

theorem linesExact_iff : LinesExact v ↔ ∀ n, Denotes v n → n < 2 ^ 31 := by
  constructor
  · intro exact_ n denotes
    have value := strtol_eq denotes
    by_cases pos : 1 ≤ (strtol v).1
    · obtain ⟨args, parsed, lines⟩ := parseArgs_p (pFlag_ok_iff.mpr ⟨⟨n, denotes⟩, pos, rfl⟩)
      obtain ⟨m, denotes', -, same⟩ := exact_ _ _ _ parsed (by rfl)
      obtain rfl := denotes_unique denotes denotes'
      change max 1 args.pLines = n at same
      rw [lines, toInt32_eq, value, Int.bmod_def] at same
      split at same <;> omega
    · omega
  · intro small isDir argv args parsed last
    have read := readFlags_given (parseArgs_ok parsed) serverFlag_p
    rw [last] at read
    obtain ⟨⟨n, denotes⟩, pos, same⟩ := pFlag_ok_iff.mp read
    have below := small n denotes
    have value := strtol_eq denotes
    refine ⟨n, denotes, by omega, ?_⟩
    change max 1 args.pLines = n
    rw [same, toInt32_eq, value, Int.bmod_def]
    split <;> omega

theorem requestsExact_iff : RequestsExact v ↔ ∀ n, Denotes v n → 0 ≤ n ∧ n < 2 ^ 64 := by
  constructor
  · intro exact_ n denotes
    obtain ⟨args, parsed, requests⟩ := parseClient_requests (requestsFlag_ok_iff.mpr ⟨⟨n, denotes⟩, rfl⟩)
    obtain ⟨m, denotes', nonneg, same⟩ := exact_ _ _ _ _ parsed (by rfl)
    obtain rfl := denotes_unique denotes denotes'
    have top := args.requests.toNat_lt
    exact ⟨nonneg, by omega⟩
  · intro small op target argv args parsed last
    have read := readFlags_given (bind_checked (fun _ _ => checkClient_ok) parsed) clientFlag_requests
    rw [last] at read
    obtain ⟨⟨n, denotes⟩, same⟩ := requestsFlag_ok_iff.mp read
    obtain ⟨nonneg, below⟩ := small n denotes
    have value := strtoull_toNat denotes
    rw [← same, if_neg (by omega), if_neg (by omega)] at value
    exact ⟨n, denotes, nonneg, by omega⟩

end Exact

/-- When the value of a flag is the integer that its argument denotes: no `--quantum` wraps round to
a positive number behind a blank or is too large, no `--p` leaves the range of an `int`, and no
`--requests` that of a `uint64_t`. -/
theorem flags_exact_iff (v : Bytes) :
    (QuantumExact v ↔ ∀ n, Denotes v n → n < 2 ^ 64 ∧ (n < 0 → v.head? = some minus)) ∧
    (LinesExact v ↔ ∀ n, Denotes v n → n < 2 ^ 31) ∧
    (RequestsExact v ↔ ∀ n, Denotes v n → 0 ≤ n ∧ n < 2 ^ 64) :=
  ⟨quantumExact_iff, linesExact_iff, requestsExact_iff⟩

theorem flags_inexact : ¬ QuantumExact (ascii " -5") ∧ ¬ LinesExact (ascii "2147483648") ∧
    ¬ RequestsExact (ascii "-5") := by
  refine ⟨fun h => ?_, fun h => ?_, fun h => ?_⟩
  · have denotes : Denotes (ascii " -5") (-5) := denotes_iff.mpr (by decide)
    exact absurd ((quantumExact_iff.mp h _ denotes).2 (by decide)) (by decide)
  · have denotes : Denotes (ascii "2147483648") 2147483648 := denotes_iff.mpr (by decide)
    exact absurd (linesExact_iff.mp h _ denotes) (by decide)
  · have denotes : Denotes (ascii "-5") (-5) := denotes_iff.mpr (by decide)
    exact absurd (requestsExact_iff.mp h _ denotes).1 (by decide)

end LinkScheduling
