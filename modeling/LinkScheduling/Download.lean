import LinkScheduling.Responses
import LinkScheduling.Server

/-! `get_file` of `client_ops.cpp`. The client gets a file when the server announces a size and
sends that many bytes, wherever the stream is cut; before that it does not touch the output. A
size for which no vector can be had ends the client by an exception. -/

namespace LinkScheduling
open Effect

structure ExchangeResult where
  ok : Bool := false
  bytes : UInt64 := 0
  error : Bytes := []
  deriving DecidableEq

def kResponseTimeoutMs : Int := 10000

def quoted (s : Bytes) : Bytes := [39] ++ s ++ [39]

/-- `socket`. Its failure shows in what it returns, as that of `connect`. -/
def socket : Sys (Option Int) := call fun v os =>
  match v with
  | .fail _ => ⟨.ok none, os, []⟩
  | .grant _ => ⟨.ok (some os.files.nextFd), { os with files := os.files.reserve }, []⟩

def connect (_ : Int) : Sys Bool := call fun v os =>
  match v with
  | .fail _ => ⟨.ok false, os, []⟩
  | .grant _ => ⟨.ok true, os, []⟩

/-- `inetPton` tells whether a text is an address. -/
def connectTo (inetPton : Bytes → Bool) (ip : Bytes) (port : UInt16) : Sys (Except Bytes Int) := do
  match ← socket with
  | none => pure (.error (ascii "socket() failed"))
  | some fd =>
    if inetPton ip then
      if ← connect fd then pure (.ok fd)
      else
        close fd
        pure (.error (ascii "cannot connect to " ++ ip ++ ascii ":" ++ decimal port.toNat))
    else
      close fd
      pure (.error (ascii "invalid server ip " ++ quoted ip))

/-- Whether `std::vector<char>(n)` can be had: it is at most `max_size` long, and the allocator, which
is not asked for no bytes, grants its bytes. -/
def vectorFits (grants : UInt64 → Bool) (n : UInt64) : Bool := n == 0 || n < 9223372036854775808 && grants n

def allocVector (grants : UInt64 → Bool) (n : UInt64) : Sys Unit :=
  if vectorFits grants n then pure () else Prog.stop .thrown

/-- The output stream. What comes of the write is not asked. -/
def storeBody (outPath body : Bytes) (size : UInt64) : Sys ExchangeResult := do
  match ← openTrunc outPath with
  | none => pure { error := ascii "cannot open output file " ++ quoted outPath }
  | some out =>
    let _ ← if 0 < size then writeAll out body else pure true
    close out
    pure { ok := true, bytes := size }

def readBody (fd : Int) (leftover : Bytes) (size : UInt64) : Sys ReadExact :=
  if 0 < size then readExact fd leftover size.toNat (-1) else pure ⟨true, [], leftover⟩

def receiveBody (grants : UInt64 → Bool) (fd : Int) (hdr : HeaderReadResult) (outPath : Bytes) (size : UInt64) :
    Sys ExchangeResult := do
  allocVector grants size
  let x ← readBody fd hdr.leftover size
  close fd
  if x.ok then storeBody outPath x.out size
  else pure { error := ascii "connection closed before full body received" }

def receiveFile (grants : UInt64 → Bool) (fd : Int) (name outPath : Bytes) : Sys ExchangeResult := do
  if ← sendAll fd (getHeader name) then
    let hdr ← readHeaderLine fd kResponseTimeoutMs
    if hdr.ok then
      let resp := parseResponseLine hdr.line
      if resp.malformed then
        close fd
        pure { error := ascii "malformed response" }
      else if resp.ok then receiveBody grants fd hdr outPath resp.n
      else
        close fd
        pure { error := resp.reason }
    else
      close fd
      pure { error := ascii "no response to GET: " ++ hdr.error }
  else
    close fd
    pure { error := ascii "connection error sending GET header" }

def getFile (grants : UInt64 → Bool) (inetPton : Bytes → Bool) (ip : Bytes) (port : UInt16) (name outPath : Bytes) :
    Sys ExchangeResult := do
  match ← connectTo inetPton ip port with
  | .error err => pure { error := err }
  | .ok fd => receiveFile grants fd name outPath

/-- The failures of the client to write its output. -/
def Event.localFault : Event → Bool
  | .openFailed _ => true
  | .writeFailed _ e => e != .intr
  | _ => false

structure Untouched (a b : Os) : Prop where
  names : b.files.names = a.files.names
  data : b.files.data = a.files.data

theorem Untouched.trans {a b c : Os} (h : Untouched a b) (h' : Untouched b c) : Untouched a c :=
  ⟨h'.names.trans h.names, h'.data.trans h.data⟩

theorem Untouched.of_files {a b : Os} (h : b.files = a.files) : Untouched a b := ⟨by rw [h], by rw [h]⟩

def Announces (stream : Bytes) (n : UInt64) : Prop := newline ∈ stream ∧ OkLine (lineOf stream) n

theorem OkLine.unique {line : Bytes} {n m : UInt64} (h : OkLine line n) (h' : OkLine line m) : n = m := by
  have same := h.parsed.symm.trans h'.parsed
  simpa using same

inductive Received (grants : UInt64 → Bool) (stream outPath : Bytes) (a : Os) :
    Except Fault ExchangeResult → Os → List Event → Prop
  | refused {r : ExchangeResult} {b : Os} {l : List Event} : r.ok = false → Untouched a b →
      ((lineOf stream).length ≤ 8192 → Clean l →
        ¬ ∃ n, Announces stream n ∧ n.toNat ≤ (restOf stream).length) → Received grants stream outPath a (.ok r) b l
  | thrown {n : UInt64} {b : Os} {l : List Event} : Untouched a b → Announces stream n → vectorFits grants n = false →
      Received grants stream outPath a (.error .thrown) b l
  | stored {n : UInt64} {b : Os} {l : List Event} : Announces stream n → n.toNat ≤ (restOf stream).length →
      ((∀ e ∈ l, e.localFault = false) → b.files.content? outPath = some ((restOf stream).take n.toNat)) →
      Received grants stream outPath a (.ok { ok := true, bytes := n }) b l

theorem write_local (fd : Int) (data : Bytes) :
    Within (fun _ : Os => True) (fun e => e.localFault = false → e.faulty = false) (write fd data) := by
  intro os _
  refine ⟨trivial, ?_⟩
  unfold write call
  cases os.verdict with
  | fail e =>
    refine List.forall_mem_singleton.mpr ?_
    exact id
  | grant most =>
    simp only
    split <;> exact List.forall_mem_singleton.mpr fun _ => rfl

theorem writeAll_local (fd : Int) (data : Bytes) :
    Within (fun _ : Os => True) (fun e => e.localFault = false → e.faulty = false) (writeAll fd data) := by
  refine .bind .get fun _ => .loop (fun done => ?_) _ _
  refine .ite (.bind (write_local fd _) fun r => ?_) (.pure _)
  split <;> exact .pure _

theorem Held.content {tmp : Path} {t : Int} {i : Nat} {stored : Bytes} {a b : Files}
    (h : Held tmp t i stored a b) : b.content? tmp = some stored := by
  rw [Files.content?, h.names, h.data]
  simp

theorem storeBody_spec (outPath body : Bytes) (n : UInt64) (os : Os) (empty : ¬ 0 < n → body = []) :
    wp (storeBody outPath body n) os fun v b l =>
      (∃ r, v = .ok r ∧ r.ok = false ∧ b.files = os.files ∧ ¬ Clean l) ∨
      (v = .ok { ok := true, bytes := n } ∧
        ((∀ e ∈ l, e.localFault = false) → b.files.content? outPath = some body)) := by
  unfold storeBody
  refine wp_seq (openTrunc_spec outPath os) ?_ ?_
  · rintro r s l ⟨-, ⟨hr, files, rfl⟩ | ⟨hr, files, rfl⟩⟩
    · cases hr
      exact .inl ⟨_, rfl, rfl, files, by simp [Event.faulty]⟩
    · cases hr
      have held : Held outPath os.files.nextFd (os.files.target outPath) [] os.files s.files :=
        files ▸ Held.create os.files outPath
      -- Whatever is written is what the output holds after the close.
      have closes : ∀ (c : Os) (part : Bytes) (l' : List Event),
          Held outPath os.files.nextFd (os.files.target outPath) part os.files c.files →
          ((∀ e ∈ l', e.localFault = false) → part = body) →
          wp (do close os.files.nextFd; pure { ok := true, bytes := n } : Sys ExchangeResult) c fun v b l'' =>
            v = .ok { ok := true, bytes := n } ∧
              ((∀ e ∈ [Event.opened outPath os.files.nextFd] ++ (l' ++ l''), e.localFault = false) →
                b.files.content? outPath = some body) := by
        intro c part l' held' whole
        refine ⟨rfl, fun served => ?_⟩
        have same : c.files.content? outPath = some part := held'.content
        rw [← whole fun e he => served e (by simp [he])]
        exact same
      simp only
      split
      · refine wp_seq (wp_and (writeAll_spec body held)
          (show wp (writeAll _ body) s fun _ _ l => ∀ e ∈ l, e.localFault = false → e.faulty = false from
            (writeAll_local _ body s trivial).2)) ?_ (by simp)
        rintro ok s₁ l₁ ⟨⟨ok', hok, writes⟩, within⟩
        obtain ⟨part, -, held', all⟩ := writes.wrote
        refine wp_mono (closes s₁ part l₁ held' fun served => ?_) fun _ _ _ h => .inr h
        refine (all (writes.clean.mpr fun e he => ?_)).1
        rw [faults_iff, within e he (served e he)]
        exact Bool.false_ne_true
      · rename_i zero
        refine wp_mono (closes s [] [] held fun _ => (empty zero).symm) fun _ _ _ h => .inr ?_
        exact h
  · rintro e s l ⟨-, ⟨h, -⟩ | ⟨h, -⟩⟩ <;> cases h

theorem ReadsExactly.taken {fd : Int} {leftover : Bytes} {n : Nat} {a b : Os} {x : ReadExact} {l : List Event}
    (h : ReadsExactly fd leftover n a x b l) (ok : x.ok = true) :
    x.out = (leftover ++ a.arrived fd).take n ∧ n ≤ (leftover ++ a.arrived fd).length := by
  obtain ⟨got, moved, ⟨rest, hrest⟩, -, -⟩ := h.moved
  obtain ⟨length, -⟩ := h.full ok
  have whole : x.out ++ (x.leftover ++ rest) = leftover ++ a.arrived fd := by
    rw [← hrest, ← List.append_assoc, moved, List.append_assoc]
  rw [← whole, ← length, List.take_left]
  exact ⟨rfl, by simp⟩

theorem ReadsExactly.few {fd : Int} {leftover : Bytes} {n : Nat} {a b : Os} {x : ReadExact} {l : List Event}
    (h : ReadsExactly fd leftover n a x b l) (failed : x.ok = false) (clean : Clean l) :
    (leftover ++ a.arrived fd).length < n := by
  obtain ⟨got, moved, -, -, all⟩ := h.moved
  have short := h.short failed
  rw [all failed clean, h.leftover_le] at moved
  have length := congrArg List.length moved
  simp only [List.length_append, List.length_drop] at length ⊢
  omega

theorem allocVector_spec (grants : UInt64 → Bool) (n : UInt64) (os : Os) : wp (allocVector grants n) os fun v b l =>
    b = os ∧ l = [] ∧ (v = .ok () ∨ v = .error .thrown ∧ vectorFits grants n = false) := by
  unfold allocVector
  split
  · exact ⟨rfl, rfl, .inl rfl⟩
  · rename_i unfit
    exact ⟨rfl, rfl, .inr ⟨rfl, by simpa using unfit⟩⟩

theorem readBody_spec (fd : Int) (leftover : Bytes) (n : UInt64) (os : Os) :
    wp (readBody fd leftover n) os fun v b l =>
      ∃ x, v = .ok x ∧ ReadsExactly fd leftover n.toNat os x b l := by
  unfold readBody
  split
  · exact readExact_spec fd leftover n.toNat (-1) os
  · rename_i zero
    have none : n.toNat = 0 := by
      rw [UInt64.lt_iff_toNat_lt] at zero
      exact Nat.eq_zero_of_not_pos zero
    rw [none]
    exact ⟨_, rfl, rfl, rfl, ⟨[], by simp, List.nil_prefix, Talks.refl fd os, by simp⟩, rfl,
      fun _ => ⟨rfl, clean_nil⟩, by simp⟩

inductive BodyEnd (grants : UInt64 → Bool) (rest outPath : Bytes) (n : UInt64) (a : Os) :
    Except Fault ExchangeResult → Os → List Event → Prop
  | refused {r : ExchangeResult} {b : Os} {l : List Event} : r.ok = false → Untouched a b →
      (Clean l → ¬ n.toNat ≤ rest.length) → BodyEnd grants rest outPath n a (.ok r) b l
  | thrown {b : Os} {l : List Event} : Untouched a b → vectorFits grants n = false →
      BodyEnd grants rest outPath n a (.error .thrown) b l
  | stored {b : Os} {l : List Event} : n.toNat ≤ rest.length →
      ((∀ e ∈ l, e.localFault = false) → b.files.content? outPath = some (rest.take n.toNat)) →
      BodyEnd grants rest outPath n a (.ok { ok := true, bytes := n }) b l

theorem receiveBody_spec (grants : UInt64 → Bool) (fd : Int) (hdr : HeaderReadResult) (outPath : Bytes) (n : UInt64)
    (os : Os) : wp (receiveBody grants fd hdr outPath n) os (BodyEnd grants (hdr.leftover ++ os.arrived fd) outPath n os) := by
  unfold receiveBody
  refine wp_seq (allocVector_spec grants n os) ?_ ?_
  · rintro ⟨⟩ s₁ l₁ ⟨rfl, rfl, h | ⟨h, -⟩⟩
    · refine wp_seq (readBody_spec fd hdr.leftover n s₁) ?_ (by simp)
      rintro x s₂ l₂ ⟨x', hx, reads⟩
      cases hx
      have same : Untouched s₁ { s₂ with files := s₂.files.close fd } :=
        ⟨by simp [reads.files], by simp [reads.files]⟩
      refine wp_seq (P := fun v b l => v = .ok () ∧ b = { s₂ with files := s₂.files.close fd } ∧ l = [.closed fd])
        ⟨rfl, rfl, rfl⟩ ?_ (by simp)
      rintro ⟨⟩ s₃ l₃ ⟨-, rfl, rfl⟩
      split
      · rename_i ok
        obtain ⟨out, enough⟩ := reads.taken ok
        have empty : ¬ 0 < n → x.out = [] := by
          intro zero
          rw [UInt64.lt_iff_toNat_lt] at zero
          rw [out, Nat.eq_zero_of_not_pos zero, List.take_zero]
        refine wp_mono (storeBody_spec outPath x.out n _ empty) ?_
        rintro v s₄ l₄ (⟨r, rfl, failed, files, faulty⟩ | ⟨rfl, content⟩)
        · refine .refused failed (same.trans (.of_files files)) fun clean => absurd ?_ faulty
          simp only [List.nil_append, clean_append] at clean
          exact clean.2.2
        · refine .stored enough fun served => ?_
          rw [content fun e he => served e (by simp [he]), out]
      · rename_i failed
        refine .refused rfl same fun clean => ?_
        simp only [List.nil_append, clean_append] at clean
        have few := reads.few (by simpa using failed) clean.1
        omega
    · cases h
  · rintro e s l ⟨rfl, rfl, h | ⟨h, unfit⟩⟩
    · cases h
    · cases h
      exact .thrown (.of_files rfl) unfit

theorem close_refuses {grants : UInt64 → Bool} {stream outPath : Bytes} {a b : Os} {l : List Event} (fd : Int) (error : Bytes)
    (same : Untouched a b) (why : (lineOf stream).length ≤ 8192 → Clean l →
      ¬ ∃ n, Announces stream n ∧ n.toNat ≤ (restOf stream).length) :
    wp (do close fd; pure { error := error } : Sys ExchangeResult) b fun v c l' =>
      Received grants stream outPath a v c (l ++ l') := by
  refine .refused rfl (same.trans ⟨rfl, rfl⟩) fun short clean => why short ?_
  exact ((clean_append _ _).mp clean).1

def replyTo (os : Os) (fd : Int) (name : Bytes) : Bytes :=
  (os.peer fd (os.sent fd ++ getHeader name)).drop (os.recvd fd).length

theorem SentAll.arrived {fd : Int} {name : Bytes} {a b : Os} {l : List Event}
    (h : SentAll fd (getHeader name) a true b l) : b.arrived fd = replyTo a fd name := by
  obtain ⟨out, -, all, talks⟩ := h.sent
  rw [all rfl] at talks
  rw [Os.arrived, talks.peer, talks.sent_self, talks.recvd_self, List.append_nil]
  rfl

theorem receiveFile_spec (grants : UInt64 → Bool) (fd : Int) (name outPath : Bytes) (os : Os) :
    wp (receiveFile grants fd name outPath) os (Received grants (replyTo os fd name) outPath os) := by
  unfold receiveFile
  refine wp_seq (sendAll_spec fd (getHeader name) os) ?_ (by simp)
  rintro ok s₁ l₁ ⟨ok', hok, sentAll⟩
  cases hok
  have same₁ : Untouched os s₁ := .of_files sentAll.files
  cases ok with
  | false =>
    simp only [Bool.false_eq_true, if_false]
    exact close_refuses fd _ same₁ fun _ clean => absurd (sentAll.clean.mpr clean) Bool.false_ne_true
  | true =>
    have arrived := sentAll.arrived
    simp only [if_true]
    refine wp_seq (readHeaderLine_spec fd kResponseTimeoutMs s₁) ?_ (by simp)
    rintro hdr s₂ l₂ ⟨hdr', hhdr, reads⟩
    cases hhdr
    simp only [← List.append_assoc]
    have same₂ := same₁.trans (.of_files reads.files)
    have read := reads.read
    have failed := reads.failed
    rw [arrived] at read failed
    split
    · rename_i ok
      obtain ⟨mem, line, left, -⟩ := read ok
      rw [line]
      have decides : ∀ n, Announces (replyTo os fd name) n →
          parseResponseLine (lineOf (replyTo os fd name)) = { ok := true, n := n } := fun n h => h.2.parsed
      split
      · rename_i malformed
        refine close_refuses fd _ same₂ fun _ _ ⟨n, announces, _⟩ => ?_
        rw [decides n announces] at malformed
        cases malformed
      · split
        · rename_i ok
          have announces : Announces (replyTo os fd name) (parseResponseLine (lineOf (replyTo os fd name))).n :=
            ⟨mem, (parseResponseLine_ok_iff _ _).mp ⟨ok, rfl⟩⟩
          refine wp_mono (receiveBody_spec grants fd hdr outPath _ s₂) ?_
          rw [left]
          rintro v s₃ l₃ h
          cases h with
          | refused failed same why =>
            refine .refused failed (same₂.trans same) fun _ clean => ?_
            rintro ⟨n, announces', enough⟩
            rw [announces'.2.unique announces.2] at enough
            exact why ((clean_append _ _).mp clean).2 enough
          | thrown same unfit => exact .thrown (same₂.trans same) announces unfit
          | stored enough content =>
            exact .stored announces enough fun served => content fun e he => served e (by simp [he])
        · rename_i unaccepted
          refine close_refuses fd _ same₂ fun _ _ ⟨n, announces, _⟩ => ?_
          rw [decides n announces] at unaccepted
          exact unaccepted rfl
    · rename_i ko
      refine close_refuses fd _ same₂ fun short clean ⟨n, announces, _⟩ => ?_
      have long := failed (by simpa using ko) ((clean_append _ _).mp clean).2 announces.1
      omega

theorem connectTo_spec (inetPton : Bytes → Bool) (ip : Bytes) (port : UInt16) (os : Os) :
    wp (connectTo inetPton ip port) os fun v b l => Untouched os b ∧
      ((∃ fd, v = .ok (.ok fd) ∧ Clean l) ∨ ∃ err, v = .ok (.error err)) := by
  rw [connectTo, socket]
  refine wp_seq (P := fun v b l => Untouched os b ∧ l = [] ∧ ∃ r, v = .ok r) ?_ ?_ (by simp)
  · rw [wp_call]
    cases os.verdict with
    | fail e => exact ⟨⟨rfl, rfl⟩, rfl, _, rfl⟩
    | grant most => exact ⟨⟨rfl, rfl⟩, rfl, _, rfl⟩
  · rintro (_ | fd) s l ⟨same, rfl, -⟩
    · exact ⟨same, .inr ⟨_, rfl⟩⟩
    · simp only
      split
      · refine wp_seq (P := fun v b l => Untouched s b ∧ l = [] ∧ ∃ ok, v = .ok ok) ?_ ?_ (by simp)
        · rw [connect, wp_call]
          cases s.verdict with
          | fail e => exact ⟨⟨rfl, rfl⟩, rfl, _, rfl⟩
          | grant most => exact ⟨⟨rfl, rfl⟩, rfl, _, rfl⟩
        · rintro ok s₁ l₁ ⟨same₁, rfl, -⟩
          split
          · exact ⟨same.trans same₁, .inl ⟨fd, rfl, clean_nil⟩⟩
          · exact ⟨(same.trans same₁).trans ⟨rfl, rfl⟩, .inr ⟨_, rfl⟩⟩
      · exact ⟨same.trans ⟨rfl, rfl⟩, .inr ⟨_, rfl⟩⟩

theorem Received.after {grants : UInt64 → Bool} {stream outPath : Bytes} {a b c : Os} {v : Except Fault ExchangeResult}
    {l l' : List Event} (h : Received grants stream outPath b v c l') (same : Untouched a b) :
    Received grants stream outPath a v c (l ++ l') := by
  cases h with
  | refused failed same' why =>
    exact .refused failed (same.trans same') fun short clean => why short ((clean_append _ _).mp clean).2
  | thrown same' announces unfit => exact .thrown (same.trans same') announces unfit
  | stored announces enough content =>
    exact .stored announces enough fun served => content fun e he => served e (List.mem_append_right _ he)

def Answers (inetPton : Bytes → Bool) (ip : Bytes) (port : UInt16) (name stream : Bytes) (os : Os) : Prop :=
  ∀ fd, (connectTo inetPton ip port os).value = .ok (.ok fd) →
    replyTo (connectTo inetPton ip port os).state fd name = stream

/-- An exchange whose output is written returns a result: a success when all of the announced
bytes have arrived, which are then what the output holds, and an error otherwise. -/
def Meets (connected : Prop) (stream outPath : Bytes) (a : Os) (o : Outcome Fault Os Event ExchangeResult) : Prop :=
  (∀ e ∈ o.log, e.localFault = false) → ∃ r, o.value = .ok r ∧
    (Clean o.log → (r.ok = true ↔ connected ∧ ∃ n, Announces stream n ∧ n.toNat ≤ (restOf stream).length)) ∧
    (r.ok = true → connected ∧ ∃ n, Announces stream n ∧ n.toNat ≤ (restOf stream).length ∧ r.bytes = n ∧
      o.state.files.content? outPath = some ((restOf stream).take n.toNat)) ∧
    (r.ok = false → Untouched a o.state)

theorem getFile_spec (grants : UInt64 → Bool) {inetPton : Bytes → Bool} {ip : Bytes} {port : UInt16} {name stream : Bytes}
    (outPath : Bytes) {os : Os} (answers : Answers inetPton ip port name stream os) :
    wp (getFile grants inetPton ip port name outPath) os fun v b l =>
      (∃ fd, (connectTo inetPton ip port os).value = .ok (.ok fd)) ∧ Received grants stream outPath os v b l ∨
      (¬ ∃ fd, (connectTo inetPton ip port os).value = .ok (.ok fd)) ∧
        ∃ err, v = .ok { error := err } ∧ Untouched os b := by
  have connects := connectTo_spec inetPton ip port os
  refine wp_seq (P := fun v b l => v = (connectTo inetPton ip port os).value ∧
    b = (connectTo inetPton ip port os).state) ⟨rfl, rfl⟩ ?_ ?_
  · rintro x s l ⟨hv, rfl⟩
    obtain ⟨same, ⟨fd, hv', -⟩ | ⟨err, hv'⟩⟩ := connects
    · rw [hv'] at hv
      cases hv
      refine wp_mono (receiveFile_spec grants fd name outPath _) ?_
      rintro v b l' received
      rw [answers fd hv'] at received
      exact .inl ⟨⟨fd, hv'⟩, received.after same⟩
    · rw [hv'] at hv
      cases hv
      refine .inr ⟨?_, err, rfl, same⟩
      rintro ⟨fd, h⟩
      rw [hv'] at h
      cases h
  · rintro e s l ⟨hv, -⟩
    obtain ⟨-, ⟨fd, hv', -⟩ | ⟨err, hv'⟩⟩ := connects
    · rw [hv'] at hv
      cases hv
    · rw [hv'] at hv
      cases hv

theorem getFile_meets {grants : UInt64 → Bool} {inetPton : Bytes → Bool} {ip : Bytes} {port : UInt16} {name stream : Bytes}
    (outPath : Bytes) {os : Os} (short : (lineOf stream).length ≤ 8192)
    (fits : ∀ n, Announces stream n → vectorFits grants n = true)
    (answers : Answers inetPton ip port name stream os) :
    Meets (∃ fd, (connectTo inetPton ip port os).value = .ok (.ok fd)) stream outPath os
      (getFile grants inetPton ip port name outPath os) := by
  intro served
  rcases getFile_spec grants outPath answers with ⟨connected, received⟩ | ⟨unconnected, err, hv, same⟩
  · generalize getFile grants inetPton ip port name outPath os = o at received served ⊢
    obtain ⟨v, b, l⟩ := o
    cases received with
    | @refused r _ _ failed same why =>
      refine ⟨r, rfl, fun clean => ?_, fun ok => ?_, fun _ => same⟩
      · exact iff_of_false (by simp [failed]) fun h => why short clean h.2
      · rw [failed] at ok
        cases ok
    | @thrown n _ _ _ announces unfit =>
      rw [fits n announces] at unfit
      cases unfit
    | @stored n _ _ announces enough content =>
      exact ⟨_, rfl, fun _ => iff_of_true rfl ⟨connected, n, announces, enough⟩,
        fun _ => ⟨connected, n, announces, enough, rfl, content served⟩, fun failed => by cases failed⟩
  · refine ⟨_, hv, fun _ => ?_, fun ok => absurd ok (by simp), fun _ => same⟩
    exact iff_of_false (by simp) fun h => unconnected h.1

def Silent (os : Os) : Prop := os.script = [] ∧ os.now = 0

theorem send_silent (fd : Int) (data : Bytes) : Tame Silent (send fd data) := by
  rintro os ⟨script, now⟩
  have granted : os.verdict = .grant none := by rw [Os.verdict, script]; rfl
  have prompt : os.elapsed = 0 := by rw [Os.elapsed, script]; rfl
  unfold send call
  rw [granted]
  refine ⟨⟨by simp [script], ?_⟩, by simp [Event.faulty]⟩
  simp [Os.answered, now, prompt]

theorem sendAll_silent (fd : Int) (data : Bytes) : Tame Silent (sendAll fd data) := by
  refine .bind (.emit (by simp [Event.faulty])) fun _ => .bind .get fun _ => .loop (fun sent => ?_) _ _
  refine .ite (.bind (send_silent fd _) fun r => ?_) (.pure _)
  split <;> exact .pure _

theorem receiveFile_throws {grants : UInt64 → Bool} {fd : Int} {name stream : Bytes} (outPath : Bytes) {os : Os}
    (silent : Silent os) (reply : replyTo os fd name = stream) (short : (lineOf stream).length ≤ 8192) {n : UInt64}
    (announces : Announces stream n) (unfit : vectorFits grants n = false) :
    wp (receiveFile grants fd name outPath) os fun v _ l => v = .error .thrown ∧ Clean l := by
  unfold receiveFile
  refine wp_seq (wp_and (sendAll_spec fd (getHeader name) os)
    (show wp (sendAll fd (getHeader name)) os fun _ b l => Silent b ∧ Clean l from
      sendAll_silent fd (getHeader name) os silent)) ?_ (by simp)
  rintro ok s₁ l₁ ⟨⟨ok', hok, sentAll⟩, silent₁, clean₁⟩
  cases hok
  obtain rfl := sentAll.clean.mpr clean₁
  have arrived : s₁.arrived fd = stream := by
    rw [sentAll.arrived, reply]
  have prompt : Prompt s₁ := ⟨silent₁.2, by simp [silent₁.1]⟩
  simp only [if_true]
  refine wp_seq (readHeaderLine_prompt fd (show kResponseTimeoutMs ≠ 0 by decide) prompt (fun _ _ => True)
    (fun _ => True) trivial (fun _ _ _ _ _ _ _ _ _ => ⟨fun _ _ => trivial, fun _ _ => trivial⟩)
    fun _ _ _ _ => trivial) ?_ (by simp)
  rintro hdr s₂ l₂ ⟨hdr', hhdr, clean₂, reads, -⟩
  cases hhdr
  have read := reads.read
  have failed := reads.failed
  rw [arrived] at read failed
  have ok : hdr.ok = true := by
    cases hok : hdr.ok with
    | true => rfl
    | false =>
      have long := failed hok clean₂ announces.1
      omega
  have parsed := announces.2.parsed
  rw [if_pos ok, (read ok).2.1, parsed]
  have vector : allocVector grants n = Prog.stop .thrown := by
    rw [allocVector, unfit]
    rfl
  simp only [Bool.false_eq_true, if_false, if_true, receiveBody, vector]
  refine ⟨rfl, ?_⟩
  change Clean (l₁ ++ (l₂ ++ []))
  simp [clean₁, clean₂]

theorem Event.localFault.faulty {e : Event} (h : e.faulty = false) : e.localFault = false := by
  cases e with
  | openFailed => cases h
  | writeFailed => exact h
  | _ => rfl

theorem getFile_throws {grants : UInt64 → Bool} {stream : Bytes} (short : (lineOf stream).length ≤ 8192) {n : UInt64}
    (announces : Announces stream n) (unfit : vectorFits grants n = false) (ip : Bytes) (port : UInt16)
    (name outPath : Bytes) :
    Answers (fun _ => true) ip port name stream (delivering stream []) ∧
    (getFile grants (fun _ => true) ip port name outPath (delivering stream [])).value = .error .thrown ∧
    ∀ e ∈ (getFile grants (fun _ => true) ip port name outPath (delivering stream [])).log, e.localFault = false := by
  have connected : connectTo (fun _ => true) ip port (delivering stream []) =
      ⟨.ok (.ok 0), { delivering stream [] with files := Files.empty.reserve }, []⟩ := rfl
  have answers : Answers (fun _ => true) ip port name stream (delivering stream []) := by
    intro fd _
    rw [connected]
    rfl
  have run : wp (receiveFile grants 0 name outPath) { delivering stream [] with files := Files.empty.reserve } _ :=
    receiveFile_throws outPath ⟨rfl, rfl⟩ rfl short announces unfit
  have whole : wp (getFile grants (fun _ => true) ip port name outPath) (delivering stream []) fun v _ l =>
      v = .error .thrown ∧ Clean l := by
    rw [getFile, wp_bind, wp, connected]
    exact run
  exact ⟨answers, whole.1, fun e he => Event.localFault.faulty (by simpa using whole.2 e he)⟩

theorem getFile_fails {grants : UInt64 → Bool} {stream : Bytes} (short : (lineOf stream).length ≤ 8192) {n : UInt64}
    (announces : Announces stream n) (unfit : vectorFits grants n = false) :
    ¬ ∀ inetPton ip port name outPath os, Answers inetPton ip port name stream os →
      Meets (∃ fd, (connectTo inetPton ip port os).value = .ok (.ok fd)) stream outPath os
        (getFile grants inetPton ip port name outPath os) := by
  intro meets
  obtain ⟨answers, thrown, served⟩ := getFile_throws short announces unfit [] 0 [] []
  obtain ⟨r, hv, -⟩ := meets _ _ _ _ [] _ answers served
  rw [thrown] at hv
  cases hv

/-- The exchange is as it should be, whatever the server side sends and however it arrives, if
and only if a vector of the announced size can be had. -/
theorem getFile_meets_iff (grants : UInt64 → Bool) {stream : Bytes} (short : (lineOf stream).length ≤ 8192) :
    (∀ inetPton ip port name outPath os, Answers inetPton ip port name stream os →
      Meets (∃ fd, (connectTo inetPton ip port os).value = .ok (.ok fd)) stream outPath os
        (getFile grants inetPton ip port name outPath os)) ↔
    ∀ n, Announces stream n → vectorFits grants n = true := by
  constructor
  · intro meets n announces
    by_contra unfit
    exact getFile_fails short announces (by simpa using unfit) meets
  · intro fits inetPton ip port name outPath os answers
    exact getFile_meets outPath short fits answers

theorem announces_two : Announces (formatOk 2 ++ ascii "ab") 2 :=
  ⟨by decide, (parseResponseLine_ok_iff _ _).mp (by decide)⟩

theorem getFile_meets_iff_two :
    (∀ inetPton ip port name outPath os, Answers inetPton ip port name (formatOk 2 ++ ascii "ab") os →
      Meets (∃ fd, (connectTo inetPton ip port os).value = .ok (.ok fd)) (formatOk 2 ++ ascii "ab") outPath os
        (getFile (fun n => n < 4096) inetPton ip port name outPath os)) ∧
    ¬ ∀ inetPton ip port name outPath os, Answers inetPton ip port name (formatOk 2 ++ ascii "ab") os →
      Meets (∃ fd, (connectTo inetPton ip port os).value = .ok (.ok fd)) (formatOk 2 ++ ascii "ab") outPath os
        (getFile (fun n => n < 2) inetPton ip port name outPath os) := by
  constructor
  · refine (getFile_meets_iff (fun n => n < 4096) (by decide)).mpr fun n announces => ?_
    rw [announces.2.unique announces_two.2]
    decide
  · intro meets
    have fits := (getFile_meets_iff (fun n => n < 2) (by decide)).mp meets 2 announces_two
    exact absurd fits (by decide)

/-- The server side announces 2^63 bytes to a client that gets all the memory it asks for, and one byte
less to one that cannot have more than 2^40. -/
theorem getFile_meets_fails :
    (¬ ∀ inetPton ip port name outPath os, Answers inetPton ip port name (formatOk 9223372036854775808) os →
      Meets (∃ fd, (connectTo inetPton ip port os).value = .ok (.ok fd)) (formatOk 9223372036854775808) outPath os
        (getFile (fun _ => true) inetPton ip port name outPath os)) ∧
    ¬ ∀ inetPton ip port name outPath os, Answers inetPton ip port name (formatOk 9223372036854775807) os →
      Meets (∃ fd, (connectTo inetPton ip port os).value = .ok (.ok fd)) (formatOk 9223372036854775807) outPath os
        (getFile (fun n => n < 1099511627776) inetPton ip port name outPath os) := by
  constructor
  · refine getFile_fails (by decide) (n := 9223372036854775808) ⟨by decide, ?_⟩ (by decide)
    exact (parseResponseLine_ok_iff _ _).mp (by decide)
  · refine getFile_fails (by decide) (n := 9223372036854775807) ⟨by decide, ?_⟩ (by decide)
    exact (parseResponseLine_ok_iff _ _).mp (by decide)

end LinkScheduling
