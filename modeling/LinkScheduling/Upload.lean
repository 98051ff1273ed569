import LinkScheduling.Declared
import LinkScheduling.Download
import LinkScheduling.Replies

/-! `put_file` of `client_ops.cpp`. The client sends the header, and the body when it has read that
the server takes it; it says that the file is stored when it has read a second line that says so.
What came along with the first line is dropped. -/

namespace LinkScheduling
open Effect

def sendBody (fd : Int) (body : Bytes) : Sys Bool := if 0 < body.length then sendAll fd body else pure true

def confirmBody (fd : Int) (body : Bytes) : Sys ExchangeResult := do
  if ← sendBody fd body then
    let hdr ← readHeaderLine fd kResponseTimeoutMs
    close fd
    if hdr.ok then
      let resp := parseResponseLine hdr.line
      if resp.malformed then pure { error := ascii "malformed response" }
      else if resp.ok then pure { ok := true, bytes := UInt64.ofNat body.length }
      else pure { error := resp.reason }
    else pure { error := ascii "no final confirmation: " ++ hdr.error }
  else
    close fd
    pure { error := ascii "connection error sending body" }

def sendFile (fd : Int) (name body : Bytes) : Sys ExchangeResult := do
  if ← sendAll fd (putHeader name (UInt64.ofNat body.length)) then
    let hdr ← readHeaderLine fd kResponseTimeoutMs
    if hdr.ok then
      let resp := parseResponseLine hdr.line
      if resp.malformed then
        close fd
        pure { error := ascii "malformed response" }
      else if resp.ok then confirmBody fd body
      else
        close fd
        pure { error := resp.reason }
    else
      close fd
      pure { error := ascii "no response to PUT header: " ++ hdr.error }
  else
    close fd
    pure { error := ascii "connection error sending PUT header" }

/-- `content` is what the local file's stream gives, nothing where it does not open. -/
def putFile (grants : UInt64 → Bool) (inetPton : Bytes → Bool) (ip : Bytes) (port : UInt16) (localPath : Path)
    (content : Option Bytes) : Sys ExchangeResult := do
  match content with
  | none => pure { error := ascii "cannot open local file " ++ quoted localPath }
  | some body =>
    allocVector grants (UInt64.ofNat body.length)
    match ← connectTo inetPton ip port with
    | .error err => pure { error := err }
    | .ok fd => sendFile fd (basenameOf localPath) body

/-- What has come from the peer since `os`, once `out` has been sent to it. -/
def answerTo (os : Os) (fd : Int) (out : Bytes) : Bytes := (os.peer fd (os.sent fd ++ out)).drop (os.recvd fd).length

theorem Talks.answerTo {fd : Int} {got out : Bytes} {a b : Os} (h : Talks fd got out a b) (more : Bytes) :
    answerTo b fd more = (answerTo a fd (out ++ more)).drop got.length := by
  rw [LinkScheduling.answerTo, LinkScheduling.answerTo, h.peer, h.sent_self, h.recvd_self, List.drop_drop,
    List.append_assoc, List.length_append]

theorem Talks.arrived_answer {fd : Int} {got out : Bytes} {a b : Os} (h : Talks fd got out a b) :
    b.arrived fd = (LinkScheduling.answerTo a fd out).drop got.length := by
  rw [← List.append_nil out, ← h.answerTo []]
  simp [LinkScheduling.answerTo, Os.arrived]

/-- The bytes `got`, read at the front of `stream`, begin with a line that reports a success. -/
structure Confirms (got stream : Bytes) : Prop where
  part : got <+: stream
  ended : newline ∈ got
  line : ∃ n, OkLine (lineOf got) n

theorem ReadsHeader.heard {fd : Int} {a b : Os} {hdr : HeaderReadResult} {l : List Event} (h : ReadsHeader fd a hdr b l) :
    ∃ got, Talks fd got [] a b ∧ (hdr.ok = true → got <+: a.arrived fd ∧ newline ∈ got ∧ lineOf got = hdr.line) := by
  obtain ⟨got, talks, part⟩ := h.talks
  refine ⟨got, talks, fun ok => ⟨part, ?_⟩⟩
  obtain ⟨mem, line, left, -⟩ := h.read ok
  obtain ⟨rest, whole⟩ := part
  have after : b.arrived fd = rest := by rw [talks.arrived, ← whole, List.drop_left]
  rw [after, ← whole] at left
  rw [← whole] at mem line
  have inside : newline ∈ got := by
    by_contra out
    have left := congrArg List.length left
    have nonempty : 0 < rest.length :=
      List.length_pos_of_mem ((List.mem_append.mp mem).resolve_left out)
    rw [restOf_append rest out, restOf, List.length_append, List.length_drop] at left
    omega
  exact ⟨inside, by rw [line, lineOf_of_mem rest inside]⟩

/-- An exchange in which `out` is sent: it is a part of the header and the body, and it goes beyond the
header only where the peer has answered the header alone with a line that takes the body. The exchange
went well only if all was sent and such a line has come once more, behind all that was read before. -/
structure Uploaded (fd : Int) (name body : Bytes) (a : Os) (v : Except Fault ExchangeResult) (b : Os) : Prop where
  returns : ∃ r, v = .ok r
  sent : ∃ got out, Talks fd got out a b ∧ out <+: putHeader name (UInt64.ofNat body.length) ++ body ∧
    ((putHeader name (UInt64.ofNat body.length)).length < out.length →
      ∃ first, first <+: got ∧ Confirms first (answerTo a fd (putHeader name (UInt64.ofNat body.length))))
  stored : ∀ r, v = .ok r → r.ok = true → r.bytes = UInt64.ofNat body.length ∧ ∃ first second,
    Talks fd (first ++ second) (putHeader name (UInt64.ofNat body.length) ++ body) a b ∧
    Confirms first (answerTo a fd (putHeader name (UInt64.ofNat body.length))) ∧
    Confirms second ((answerTo a fd (putHeader name (UInt64.ofNat body.length) ++ body)).drop first.length)

/-- What follows the first line, from the state `a` in which the body is to be sent. -/
structure Finishes (fd : Int) (body : Bytes) (a : Os) (v : Except Fault ExchangeResult) (b : Os) : Prop where
  returns : ∃ r, v = .ok r
  sent : ∃ got out, Talks fd got out a b ∧ out <+: body ∧ ∀ r, v = .ok r → r.ok = true →
    r.bytes = UInt64.ofNat body.length ∧ out = body ∧ Confirms got (answerTo a fd body)

section Upload
variable {fd : Int} {name body : Bytes}

theorem confirms_of {hdr : HeaderReadResult} {got stream : Bytes}
    (read : got <+: stream ∧ newline ∈ got ∧ lineOf got = hdr.line) (ok : (parseResponseLine hdr.line).ok = true) :
    Confirms got stream := by
  refine ⟨read.1, read.2.1, (parseResponseLine hdr.line).n, ?_⟩
  rw [read.2.2]
  exact (parseResponseLine_ok_iff _ _).mp ⟨ok, rfl⟩

theorem sendBody_spec (fd : Int) (body : Bytes) (os : Os) : wp (sendBody fd body) os fun v b _ =>
    ∃ ok out, v = .ok ok ∧ out <+: body ∧ (ok = true → out = body) ∧ Talks fd [] out os b := by
  unfold sendBody
  split
  · refine wp_mono (sendAll_spec fd body os) ?_
    rintro v b l ⟨ok, hok, sent⟩
    obtain ⟨out, part, all, talks⟩ := sent.sent
    exact ⟨ok, out, hok, part, all, talks⟩
  · have empty : body = [] := List.length_eq_zero_iff.mp (by omega)
    exact ⟨true, [], rfl, List.nil_prefix, fun _ => empty.symm, .refl fd os⟩

theorem confirmBody_spec (os : Os) : wp (confirmBody fd body) os fun v b _ => Finishes fd body os v b := by
  unfold confirmBody
  refine wp_seq (sendBody_spec fd body os) ?_ (by simp)
  rintro ok s₁ l₁ ⟨ok', out, hok, part, all, talks⟩
  cases hok
  cases ok with
  | false =>
    simp only [Bool.false_eq_true, if_false]
    have closed : Talks fd [] out os { s₁ with files := s₁.files.close fd } := ⟨talks.peer, talks.recvd, talks.sent⟩
    exact ⟨⟨_, rfl⟩, [], out, closed, part, fun r hr well => by cases hr; cases well⟩
  | true =>
    simp only [if_true]
    cases all rfl
    refine wp_seq (readHeaderLine_spec fd kResponseTimeoutMs s₁) ?_ (by simp)
    rintro hdr s₂ l₂ ⟨hdr', hhdr, reads⟩
    cases hhdr
    obtain ⟨got, hears, read⟩ := reads.heard
    rw [talks.arrived_answer] at read
    have both := talks.trans hears
    rw [List.nil_append, List.append_nil] at both
    have closed : Talks fd got body os { s₂ with files := s₂.files.close fd } := ⟨both.peer, both.recvd, both.sent⟩
    have refused : ∀ error : Bytes, wp (do close fd; pure { error := error } : Sys ExchangeResult) s₂
        fun v b _ => Finishes fd body os v b := fun error =>
      ⟨⟨_, rfl⟩, got, body, closed, part, fun r hr well => by cases hr; cases well⟩
    split
    · rename_i whole
      split
      · exact refused _
      · split
        · rename_i accepted
          refine ⟨⟨_, rfl⟩, got, body, closed, part, fun r hr well => ?_⟩
          cases hr
          exact ⟨rfl, rfl, confirms_of (read whole) accepted⟩
        · exact refused _
    · exact refused _

theorem Uploaded.refused {a b : Os} {got out : Bytes} {error : Bytes} (talks : Talks fd got out a b)
    (part : out <+: putHeader name (UInt64.ofNat body.length)) : Uploaded fd name body a (.ok { error := error }) b where
  returns := ⟨_, rfl⟩
  sent := by
    refine ⟨got, out, talks, part.trans (List.prefix_append _ _), fun longer => ?_⟩
    have short := part.length_le
    omega
  stored r hr well := by
    cases hr
    cases well

theorem Uploaded.taken {a b c : Os} {first : Bytes} {v : Except Fault ExchangeResult}
    (asked : Talks fd first (putHeader name (UInt64.ofNat body.length)) a b)
    (takes : Confirms first (answerTo a fd (putHeader name (UInt64.ofNat body.length)))) (h : Finishes fd body b v c) :
    Uploaded fd name body a v c where
  returns := h.returns
  sent := by
    obtain ⟨got, out, talks, part, -⟩ := h.sent
    exact ⟨first ++ got, _, asked.trans talks, (List.prefix_append_right_inj _).mpr part,
      fun _ => ⟨first, List.prefix_append _ _, takes⟩⟩
  stored r hr well := by
    obtain ⟨second, out, talks, -, done⟩ := h.sent
    obtain ⟨bytes, rfl, confirms⟩ := done r hr well
    rw [asked.answerTo] at confirms
    exact ⟨bytes, first, second, asked.trans talks, takes, confirms⟩

theorem sendFile_spec (fd : Int) (name body : Bytes) (os : Os) :
    wp (sendFile fd name body) os fun v b _ => Uploaded fd name body os v b := by
  unfold sendFile
  refine wp_seq (sendAll_spec fd _ os) ?_ (by simp)
  rintro ok s₁ l₁ ⟨ok', hok, sentAll⟩
  cases hok
  obtain ⟨out, part, all, talks⟩ := sentAll.sent
  cases ok with
  | false =>
    simp only [Bool.false_eq_true, if_false]
    have closed : Talks fd [] out os { s₁ with files := s₁.files.close fd } := ⟨talks.peer, talks.recvd, talks.sent⟩
    exact .refused closed part
  | true =>
    simp only [if_true]
    cases all rfl
    refine wp_seq (readHeaderLine_spec fd kResponseTimeoutMs s₁) ?_ (by simp)
    rintro hdr s₂ l₂ ⟨hdr', hhdr, reads⟩
    cases hhdr
    obtain ⟨first, hears, read⟩ := reads.heard
    rw [talks.arrived_answer] at read
    have asked := talks.trans hears
    rw [List.nil_append, List.append_nil] at asked
    have refused : ∀ error : Bytes, wp (do close fd; pure { error := error } : Sys ExchangeResult) s₂
        fun v b _ => Uploaded fd name body os v b := by
      intro error
      have closed : Talks fd first (putHeader name (UInt64.ofNat body.length)) os { s₂ with files := s₂.files.close fd } :=
        ⟨asked.peer, asked.recvd, asked.sent⟩
      exact Uploaded.refused closed (List.prefix_refl _)
    split
    · rename_i whole
      split
      · exact refused _
      · split
        · rename_i accepted
          refine wp_mono (confirmBody_spec s₂) ?_
          exact fun v b l finishes => .taken asked (confirms_of (read whole) accepted) finishes
        · exact refused _
    · exact refused _

theorem connectTo_still (inetPton : Bytes → Bool) (ip : Bytes) (port : UInt16) (os : Os) :
    wp (connectTo inetPton ip port) os fun v b _ => (∃ r, v = .ok r) ∧ Still os b := by
  rw [connectTo, socket]
  refine wp_seq (P := fun v b _ => (∃ r, v = .ok r) ∧ Still os b) ?_ ?_ (by simp)
  · rw [wp_call]
    cases os.verdict with
    | fail e => exact ⟨⟨_, rfl⟩, rfl, rfl, rfl⟩
    | grant most => exact ⟨⟨_, rfl⟩, rfl, rfl, rfl⟩
  · rintro (_ | fd) s l ⟨-, same⟩
    · exact ⟨⟨_, rfl⟩, same⟩
    · simp only
      split
      · refine wp_seq (P := fun v b _ => (∃ ok, v = .ok ok) ∧ Still os b) ?_ ?_ (by simp)
        · rw [connect, wp_call]
          cases s.verdict with
          | fail e => exact ⟨⟨_, rfl⟩, same.peer, same.recvd, same.sent⟩
          | grant most => exact ⟨⟨_, rfl⟩, same.peer, same.recvd, same.sent⟩
        · rintro ok s₁ l₁ ⟨-, same₁⟩
          split
          · exact ⟨⟨_, rfl⟩, same₁.peer, same₁.recvd, same₁.sent⟩
          · exact ⟨⟨_, rfl⟩, same₁.peer, same₁.recvd, same₁.sent⟩
      · exact ⟨⟨_, rfl⟩, same.peer, same.recvd, same.sent⟩

theorem Still.answerTo {a b : Os} (h : Still a b) (fd : Int) (out : Bytes) : answerTo b fd out = answerTo a fd out := by
  rw [LinkScheduling.answerTo, LinkScheduling.answerTo, h.peer, h.recvd, h.sent]

theorem Uploaded.first {a b c : Os} {v : Except Fault ExchangeResult} (h : Still a b) (h' : Uploaded fd name body b v c) :
    Uploaded fd name body a v c where
  returns := h'.returns
  sent := by
    obtain ⟨got, out, talks, part, taken⟩ := h'.sent
    rw [h.answerTo] at taken
    exact ⟨got, out, (h.talks fd).trans talks, part, taken⟩
  stored r hr well := by
    obtain ⟨bytes, first, second, talks, takes, confirms⟩ := h'.stored r hr well
    rw [h.answerTo] at takes confirms
    exact ⟨bytes, first, second, (h.talks fd).trans talks, takes, confirms⟩

/-- Whatever comes of the calls and whatever the peer says, an upload speaks on one socket at most:
there it keeps to its header and its body, and it goes well only where the server has taken the body
and then confirmed it. -/
theorem putFile_uploads (grants : UInt64 → Bool) (inetPton : Bytes → Bool) (ip : Bytes) (port : UInt16) (localPath : Path)
    (content : Option Bytes) (os : Os) : wp (putFile grants inetPton ip port localPath content) os fun v b _ =>
      (Still os b ∧ ∀ r, v = .ok r → r.ok = false) ∨
        ∃ body fd, content = some body ∧ Uploaded fd (basenameOf localPath) body os v b := by
  unfold putFile
  cases content with
  | none =>
    refine .inl ⟨.refl os, fun r hr => ?_⟩
    cases hr
    rfl
  | some body =>
    simp only
    refine wp_seq (allocVector_spec grants _ os) ?_ ?_
    · rintro ⟨⟩ s₁ l₁ ⟨rfl, -, -⟩
      refine wp_seq (connectTo_still inetPton ip port s₁) ?_ (by simp)
      rintro r s₂ l₂ ⟨-, same⟩
      cases r with
      | error err =>
        refine .inl ⟨same, fun r hr => ?_⟩
        cases hr
        rfl
      | ok fd =>
        refine wp_mono (sendFile_spec fd (basenameOf localPath) body s₂) ?_
        exact fun v b l uploaded => .inr ⟨body, fd, rfl, uploaded.first same⟩
    · rintro e s₁ l₁ ⟨rfl, -, -⟩
      exact .inl ⟨.refl _, fun r hr => by cases hr⟩

end Upload

/-- A server that says both lines to an upload of nothing at once; `most` of their bytes come first. -/
def acknowledging (most : Option Nat) : Os :=
  { Os.start Files.empty [⟨.grant none, 0⟩, ⟨.grant most, 0⟩] with
    peer := fun _ sent => if sent = putHeader [102] 0 then formatOk 0 ++ formatOk 0 else [] }

example : (sendFile 7 [102] [] (acknowledging (some 5))).value = .ok { ok := true } ∧
    (sendFile 7 [102] [] (acknowledging none)).value =
      .ok { error := ascii "no final confirmation: " ++ ascii "peer closed before header line completed" } :=
  ⟨by rfl, by rfl⟩

end LinkScheduling
