import LinkScheduling.Exchange

/-! What `read_header_line` makes of a stream, however the stream is cut into chunks: the line
before the first newline, and what has been received beyond it. A line of at most 8192 bytes is
always read and one of more than 8703 never; in between the chunks decide. -/

namespace LinkScheduling
open Effect

def lineOf (s : Bytes) : Bytes := s.takeWhile (· != newline)

def restOf (s : Bytes) : Bytes := s.drop ((lineOf s).length + 1)

section Lines
variable {p : Bytes} (s : Bytes)

theorem lineOf_eq_self (h : newline ∉ p) : lineOf p = p := by
  refine List.takeWhile_eq_self_iff.mpr fun c hc => ?_
  simp only [bne_iff_ne, ne_eq]
  rintro rfl
  exact h hc

theorem newline_not_mem_lineOf : newline ∉ lineOf s := by
  intro h
  simpa using List.mem_takeWhile_imp h

theorem lineOf_append (h : newline ∉ p) : lineOf (p ++ s) = p ++ lineOf s := by
  rw [lineOf, List.takeWhile_append_of_pos, ← lineOf]
  intro c hc
  simp only [bne_iff_ne, ne_eq]
  rintro rfl
  exact h hc

theorem restOf_append (h : newline ∉ p) : restOf (p ++ s) = restOf s := by
  rw [restOf, lineOf_append s h, List.length_append, Nat.add_assoc, List.drop_append, List.drop_eq_nil_of_le
    (by omega), List.nil_append, Nat.add_sub_cancel_left, ← restOf]

theorem eq_line_rest {s : Bytes} (h : newline ∈ s) : s = lineOf s ++ newline :: restOf s := by
  induction s with
  | nil => cases h
  | cons c s ih =>
    by_cases hc : c = newline
    · simp [lineOf, restOf, hc]
    · have hs : newline ∈ s := (List.mem_cons.mp h).resolve_left (Ne.symm hc)
      have step : lineOf (c :: s) = c :: lineOf s := by simp [lineOf, hc]
      rw [restOf, step, List.length_cons, List.drop_succ_cons, ← restOf, List.cons_append, ← ih hs]

theorem lineOf_line (h : newline ∉ p) : lineOf (p ++ newline :: s) = p := by
  rw [lineOf_append _ h]
  simp [lineOf]

theorem restOf_line (h : newline ∉ p) : restOf (p ++ newline :: s) = s := by
  rw [restOf_append _ h]
  simp [restOf, lineOf]

theorem lineOf_of_mem (h : newline ∈ p) : lineOf (p ++ s) = lineOf p := by
  rw [eq_line_rest h, List.append_assoc, List.cons_append, lineOf_line _ (newline_not_mem_lineOf p),
    lineOf_line _ (newline_not_mem_lineOf p)]

theorem restOf_of_mem (h : newline ∈ p) : restOf (p ++ s) = restOf p ++ s := by
  rw [eq_line_rest h, List.append_assoc, List.cons_append, restOf_line _ (newline_not_mem_lineOf p),
    restOf_line _ (newline_not_mem_lineOf p)]

theorem length_lineOf_lt {s : Bytes} (h : newline ∈ s) : (lineOf s).length < s.length := by
  have split := congrArg List.length (eq_line_rest h)
  rw [List.length_append, List.length_cons] at split
  omega

end Lines

/-- How a `read_header_line` ends. It fails only with a fault, at the end of what the peer has
written, or on a line that is too long. -/
structure ReadsHeader (fd : Int) (a : Os) (hdr : HeaderReadResult) (b : Os) (l : List Event) : Prop where
  files : b.files = a.files
  talks : ∃ got, Talks fd got [] a b ∧ got <+: a.arrived fd
  read : hdr.ok = true → newline ∈ a.arrived fd ∧ hdr.line = lineOf (a.arrived fd) ∧
    hdr.leftover ++ b.arrived fd = restOf (a.arrived fd) ∧ hdr.line.length ≤ 8703
  failed : hdr.ok = false → Clean l → newline ∈ a.arrived fd → 8192 < (lineOf (a.arrived fd)).length

/-- Before a turn of the loop: the line so far is all that has been received. -/
structure HeaderSoFar (fd : Int) (a : Os) (line : Bytes) (b : Os) : Prop where
  files : b.files = a.files
  talks : Talks fd line [] a b
  arrived : line <+: a.arrived fd
  short : line.length ≤ 8192
  unbroken : newline ∉ line

section Turn
variable {fd : Int} {a b c : Os} {line buf : Bytes} {l l' : List Event}

theorem HeaderSoFar.fault (h : HeaderSoFar fd a line b) (files : c.files = b.files) (talks : Talks fd [] [] b c)
    (faulty : ¬ Clean l) (error : Bytes) : ReadsHeader fd a { error := error } c l where
  files := files.trans h.files
  talks := ⟨line, h.talks.then_quiet talks, h.arrived⟩
  read h := by cases h
  failed _ clean := absurd clean faulty

theorem HeaderSoFar.split (h : HeaderSoFar fd a line b) : a.arrived fd = line ++ b.arrived fd := by
  obtain ⟨t, ht⟩ := h.arrived
  rw [h.talks.arrived, ← ht, List.drop_left]

theorem HeaderSoFar.closed (h : HeaderSoFar fd a line b) (files : c.files = b.files)
    (talks : Talks fd [] [] b c) (ended : b.arrived fd = []) (error : Bytes) :
    ReadsHeader fd a { error := error } c l where
  files := files.trans h.files
  talks := ⟨line, h.talks.then_quiet talks, h.arrived⟩
  read h := by cases h
  failed _ _ mem := by
    rw [h.split, ended, List.append_nil] at mem
    exact absurd mem h.unbroken

theorem HeaderSoFar.feed (h : HeaderSoFar fd a line b) (files : c.files = b.files)
    (talks : Talks fd buf [] b c) (size : buf.length ≤ 512) (arrived : buf <+: b.arrived fd) :
    (∀ line', HeaderReadResult.feed line buf = .inl line' →
      HeaderSoFar fd a line' c ∧ line' = line ++ buf) ∧
    ∀ r, HeaderReadResult.feed line buf = .inr r → ReadsHeader fd a r c l := by
  have files := files.trans h.files
  have whole := h.talks.trans talks
  obtain ⟨rest, hrest⟩ := arrived
  have split : a.arrived fd = (line ++ buf) ++ rest := by
    rw [h.split, ← hrest, List.append_assoc]
  have left : c.arrived fd = rest := by rw [talks.arrived, ← hrest, List.drop_left]
  have pre : line ++ buf <+: a.arrived fd := ⟨rest, split.symm⟩
  unfold HeaderReadResult.feed
  by_cases hmem : newline ∈ buf
  · rw [if_pos hmem]
    refine ⟨by simp, fun r hr => ?_⟩
    cases hr
    have mem : newline ∈ line ++ buf := List.mem_append_right _ hmem
    refine ⟨files, ⟨_, whole, pre⟩, fun _ => ⟨?_, ?_, ?_, ?_⟩, by simp⟩
    · rw [split]
      exact List.mem_append_left _ mem
    · rw [split, lineOf_of_mem _ mem, lineOf_append _ h.unbroken]
      rfl
    · rw [split, restOf_of_mem _ mem, restOf_append _ h.unbroken, left]
      rfl
    · have := length_lineOf_lt hmem
      have := h.short
      simp only [List.length_append]
      rw [← lineOf]
      omega
  · rw [if_neg hmem]
    have unbroken : newline ∉ line ++ buf := by
      rw [List.mem_append]
      exact not_or.mpr ⟨h.unbroken, hmem⟩
    by_cases long : 8192 < (line ++ buf).length
    · rw [if_pos long]
      refine ⟨by simp, fun r hr => ?_⟩
      cases hr
      refine ⟨files, ⟨_, whole, pre⟩, by simp, fun _ _ _ => ?_⟩
      rw [split, lineOf_append _ unbroken, List.length_append]
      omega
    · rw [if_neg long]
      refine ⟨fun line' hline => ?_, by simp⟩
      cases hline
      exact ⟨⟨files, by simpa using whole, pre, by omega, unbroken⟩, rfl⟩

end Turn

theorem ReadsHeader.restored {fd : Int} {a b : Os} {hdr : HeaderReadResult} {l : List Event}
    (h : ReadsHeader fd a hdr b l) (timeoutMs : Int) :
    wp (do
        if hdr.ok && decide (0 ≤ timeoutMs) then setRecvTimeout fd timeoutMs.toNat
        pure (.inr hdr) : Sys (Bytes ⊕ HeaderReadResult)) b
      fun v c l' => v = .ok (.inr hdr) ∧ l' = [] ∧ ReadsHeader fd a hdr c l := by
  split
  · obtain ⟨got, talks, pre⟩ := h.talks
    exact ⟨rfl, rfl, h.files, ⟨got, ⟨talks.peer, talks.recvd, talks.sent⟩, pre⟩, h.read, h.failed⟩
  · exact ⟨rfl, rfl, h⟩

theorem headerTurn_spec {fd : Int} {a b : Os} {line : Bytes} (h : HeaderSoFar fd a line b)
    (timeoutMs : Int) (deadline : Nat) :
    wp (headerTurn fd timeoutMs deadline line) b fun v c l => ∃ r, v = .ok r ∧
      match r with
      | .inl line' => HeaderSoFar fd a line' c ∧ line.length < line'.length ∧ Clean l
      | .inr hdr => ReadsHeader fd a hdr c l := by
  unfold headerTurn
  refine wp_seq (armed_spec fd timeoutMs deadline b) ?_ (by simp)
  rintro ok b₁ l₁ ⟨idles, armed⟩
  have talks₁ := idles.still.talks fd
  cases ok with
  | false =>
    have faulty : ¬ Clean l₁ := by
      rcases armed with ⟨h, -⟩ | ⟨-, h⟩
      · cases h
      · exact h
    simp only [Bool.false_eq_true, if_false, wp_pure, List.append_nil]
    exact ⟨_, rfl, h.fault idles.files talks₁ faulty _⟩
  | true =>
    have clean₁ : Clean l₁ := by
      rcases armed with ⟨-, h⟩ | ⟨h, -⟩
      · exact h
      · cases h
    have h₁ : HeaderSoFar fd a line b₁ :=
      ⟨idles.files.trans h.files, h.talks.then_quiet talks₁, h.arrived, h.short, h.unbroken⟩
    simp only [if_true]
    refine wp_seq (recv_spec fd (by omega) b₁) ?_ (by simp)
    rintro r b₂ l₂ ⟨r', hr, files, -, ⟨e, rfl, talks, faulty⟩ | ⟨part, rfl, size, pre, ended, talks, clean⟩⟩
    · cases hr
      have result := fun error => h₁.fault (l := l₁ ++ l₂) files talks (by simp [faulty]) error
      cases e <;> simp only [wp_pure, List.append_nil] <;> exact ⟨_, rfl, result _⟩
    · cases hr
      cases part with
      | nil =>
        simp only [wp_pure, List.append_nil]
        exact ⟨_, rfl, h₁.closed files talks (ended rfl) _⟩
      | cons c part =>
        obtain ⟨further, final⟩ := h₁.feed (l := l₁ ++ l₂) files talks size pre
        simp only
        cases hfeed : HeaderReadResult.feed line (c :: part) with
        | inl line' =>
          obtain ⟨next, rfl⟩ := further line' hfeed
          simp only [wp_pure, List.append_nil]
          refine ⟨_, rfl, next, ?_, by simp [clean₁, clean]⟩
          rw [List.length_append, List.length_cons]
          omega
        | inr hdr =>
          refine wp_mono ((final hdr hfeed).restored timeoutMs) ?_
          rintro v d l₃ ⟨rfl, rfl, ends⟩
          simp only [List.append_nil]
          exact ⟨_, rfl, ends⟩

theorem readHeaderLine_spec (fd : Int) (timeoutMs : Int) (os : Os) :
    wp (readHeaderLine fd timeoutMs) os fun v os' l => ∃ hdr, v = .ok hdr ∧ ReadsHeader fd os hdr os' l := by
  rw [readHeaderLine, wp_get_bind]
  refine wp_loop (fun line b l => HeaderSoFar fd os line b ∧ Clean l) (fun line _ => 8193 - line.length) ?_ _ _ os
    ⟨⟨rfl, Talks.refl fd os, List.nil_prefix, by simp, by simp⟩, clean_nil⟩ (by simp)
  rintro line b l ⟨sofar, clean⟩
  refine wp_mono (headerTurn_spec sofar timeoutMs _) ?_
  rintro v c l' ⟨r, rfl, hr⟩
  rcases r with line' | hdr
  · obtain ⟨next, longer, clean'⟩ := hr
    have := next.short
    exact ⟨⟨next, by simp [clean, clean']⟩, by omega⟩
  · refine ⟨hdr, rfl, hr.files, hr.talks, hr.read, fun failed clean' => hr.failed failed ?_⟩
    exact ((clean_append _ _).mp clean').2

/-- The stream arrives on `fd` within the deadline: no call fails and none comes too late. -/
structure Delivers (fd : Int) (timeoutMs : Int) (stream : Bytes) (os : Os) : Prop where
  arrived : os.arrived fd = stream
  clean : Clean (readHeaderLine fd timeoutMs os).log

/-- Both runs fail, or both read the line of the stream and leave what comes after it. -/
def SameVerdict (fd : Int) (stream : Bytes) (o o' : Outcome Fault Os Event HeaderReadResult) : Prop :=
  ∃ hdr hdr', o.value = .ok hdr ∧ o'.value = .ok hdr' ∧ hdr.ok = hdr'.ok ∧ (hdr.ok = true →
    hdr.line = lineOf stream ∧ hdr'.line = lineOf stream ∧
    hdr.leftover ++ o.state.arrived fd = restOf stream ∧ hdr'.leftover ++ o'.state.arrived fd = restOf stream)

/-- The way a stream is cut does not matter, and a line is read when it has at most 8192 bytes. -/
structure SegmentationFree (fd : Int) (timeoutMs : Int) (stream : Bytes) : Prop where
  agree : ∀ os os', Delivers fd timeoutMs stream os → Delivers fd timeoutMs stream os' →
    SameVerdict fd stream (readHeaderLine fd timeoutMs os) (readHeaderLine fd timeoutMs os')
  verdict : ∀ os, Delivers fd timeoutMs stream os → ∃ hdr, (readHeaderLine fd timeoutMs os).value = .ok hdr ∧
    (hdr.ok = true ↔ newline ∈ stream ∧ (lineOf stream).length ≤ 8192)

def chunkOf (fd : Int) (most : Option Nat) (os : Os) : Bytes :=
  let rest := (os.arrived fd).take 512
  rest.take (amount rest.length most)

def InTime (timeoutMs : Int) (deadline now : Nat) : Prop := 0 ≤ timeoutMs → 1000000 ≤ deadline - now

theorem armed_inTime (fd : Int) {timeoutMs : Int} {deadline : Nat} {b : Os}
    (time : InTime timeoutMs deadline b.now) :
    wp (armed fd timeoutMs deadline) b fun v c l => v = .ok true ∧ Clean l ∧ c.script = b.script ∧
      c.now = b.now ∧ c.arrived fd = b.arrived fd := by
  unfold armed
  split
  · have left : (deadline - b.now) / 1000000 ≠ 0 := by
      have := time ‹_›
      omega
    simp [wp, armRemaining, left, Event.faulty, Os.arrived]
  · exact ⟨rfl, clean_nil, rfl, rfl, rfl⟩

theorem recv_granted (fd : Int) {b : Os} {most : Option Nat} (hv : b.verdict = .grant most) :
    wp (recv fd 512) b fun v c l => v = .ok (.ok (chunkOf fd most b)) ∧ Clean l ∧
      c.script = b.script.tail ∧ c.now = b.now + b.elapsed := by
  unfold wp recv call
  rw [hv]
  exact ⟨rfl, by simp [Event.faulty], rfl, rfl⟩

theorem headerTurn_granted (fd : Int) {timeoutMs : Int} {deadline : Nat} (line : Bytes) {b : Os}
    {most : Option Nat} (hv : b.verdict = .grant most) (time : InTime timeoutMs deadline b.now) :
    wp (headerTurn fd timeoutMs deadline line) b fun v c l => Clean l ∧ c.script = b.script.tail ∧
      c.now = b.now + b.elapsed ∧ v = .ok (if chunkOf fd most b = [] then
        .inr { error := ascii "peer closed before header line completed" }
      else HeaderReadResult.feed line (chunkOf fd most b)) := by
  refine wp_seq (armed_inTime fd time) ?_ (by simp)
  rintro ok b₁ l₁ ⟨hok, clean₁, script₁, now₁, arrived₁⟩
  cases hok
  have hv₁ : b₁.verdict = .grant most := by rw [Os.verdict, script₁, ← Os.verdict, hv]
  have chunk : chunkOf fd most b₁ = chunkOf fd most b := by rw [chunkOf, chunkOf, arrived₁]
  refine wp_seq (recv_granted fd hv₁) ?_ (by simp)
  rintro r c l ⟨hr, clean, script, now⟩
  cases hr
  rw [chunk]
  rw [script₁] at script
  rw [now₁, Os.elapsed, script₁, ← Os.elapsed] at now
  cases chunkOf fd most b with
  | nil =>
    rw [wp_pure]
    exact ⟨by simp [clean₁, clean], script, now, rfl⟩
  | cons x xs =>
    simp only [reduceCtorEq, if_false]
    cases HeaderReadResult.feed line (x :: xs) with
    | inl line' =>
      simp only [wp_pure]
      exact ⟨by simp [clean₁, clean], script, now, trivial⟩
    | inr r =>
      refine wp_mono (P := fun v d l => v = .ok (.inr r) ∧ l = [] ∧ d.script = c.script ∧ d.now = c.now) ?_ ?_
      · simp only
        split <;> exact ⟨rfl, rfl, rfl, rfl⟩
      · rintro v d l' ⟨rfl, rfl, script', now'⟩
        exact ⟨by simp [clean₁, clean], script'.trans script, now'.trans now, rfl⟩

theorem chunkOf_prefix (fd : Int) (most : Option Nat) (os : Os) : chunkOf fd most os <+: os.arrived fd :=
  (List.take_prefix _ _).trans (List.take_prefix _ _)

theorem chunkOf_eq_nil {fd : Int} {most : Option Nat} {os : Os} (h : chunkOf fd most os = []) :
    os.arrived fd = [] := by
  by_contra hne
  have waiting := List.length_pos_iff.mpr hne
  have limit : 0 < ((os.arrived fd).take 512).length := by
    rw [List.length_take]
    omega
  have moved := amount_pos limit most
  have none := congrArg List.length h
  simp only [chunkOf, List.length_take, List.length_nil] at none moved
  omega

/-- The world in which the replies to all calls are `script`, and `stream` has arrived. -/
def delivering (stream : Bytes) (script : List Reply) : Os :=
  { Os.start Files.empty script with peer := fun _ _ => stream }

/-- Every call is granted at once. -/
def Prompt (os : Os) : Prop := os.now = 0 ∧ ∀ r ∈ os.script, (∃ most, r.verdict = .grant most) ∧ r.elapsed = 0

theorem Prompt.verdict {os : Os} (h : Prompt os) : (∃ most, os.verdict = .grant most) ∧ os.elapsed = 0 := by
  cases hs : os.script with
  | nil => simp [Os.verdict, Os.elapsed, hs]
  | cons r rest => simpa [Os.verdict, Os.elapsed, hs] using h.2 r (by simp [hs])

theorem inTime_start {timeoutMs : Int} (h : timeoutMs ≠ 0) : InTime timeoutMs (0 + timeoutMs.toNat * 1000000) 0 := by
  intro nonneg
  omega

theorem readHeaderLine_prompt (fd : Int) {timeoutMs : Int} (ht : timeoutMs ≠ 0) {os : Os} (prompt : Prompt os)
    (inv : Bytes → Os → Prop) (result : HeaderReadResult → Prop) (start : inv [] os)
    (turn : ∀ line b c most, HeaderSoFar fd os line b → inv line b → b.verdict = .grant most →
      c.script = b.script.tail → chunkOf fd most b ≠ [] →
      (∀ line', HeaderReadResult.feed line (chunkOf fd most b) = .inl line' → inv line' c) ∧
      ∀ r, HeaderReadResult.feed line (chunkOf fd most b) = .inr r → result r)
    (ended : ∀ line b, HeaderSoFar fd os line b → b.arrived fd = [] →
      result { error := ascii "peer closed before header line completed" }) :
    wp (readHeaderLine fd timeoutMs) os fun v os' l => ∃ hdr, v = .ok hdr ∧ Clean l ∧
      ReadsHeader fd os hdr os' l ∧ result hdr := by
  rw [readHeaderLine, wp_get_bind, prompt.1]
  refine wp_loop (fun line b l => HeaderSoFar fd os line b ∧ Clean l ∧ Prompt b ∧ inv line b)
    (fun line _ => 8193 - line.length) ?_ _ _ os
    ⟨⟨rfl, Talks.refl fd os, List.nil_prefix, by simp, by simp⟩, clean_nil, prompt, start⟩ (by simp)
  rintro line b l ⟨sofar, clean, prompt, hinv⟩
  obtain ⟨⟨most, hv⟩, elapsed⟩ := prompt.verdict
  refine wp_mono (wp_and (headerTurn_spec sofar timeoutMs _)
    (headerTurn_granted fd line hv (prompt.1 ▸ inTime_start ht))) ?_
  rintro v c l' ⟨⟨r, rfl, hr⟩, clean', script, now, value⟩
  have prompt' : Prompt c := ⟨by rw [now, prompt.1, elapsed], fun x hx =>
    prompt.2 x (List.mem_of_mem_tail (script ▸ hx))⟩
  have logged : Clean (l ++ l') := by simp [clean, clean']
  have r_eq := Except.ok.inj value
  by_cases hchunk : chunkOf fd most b = []
  · rw [if_pos hchunk] at r_eq
    subst r_eq
    exact ⟨_, rfl, logged, ⟨hr.files, hr.talks, hr.read, fun failed _ => hr.failed failed clean'⟩,
      ended line b sofar (chunkOf_eq_nil hchunk)⟩
  · rw [if_neg hchunk] at r_eq
    obtain ⟨further, final⟩ := turn line b c most sofar hinv hv script hchunk
    rcases r with line' | hdr
    · obtain ⟨next, longer, -⟩ := hr
      have := next.short
      exact ⟨⟨next, logged, prompt', further line' r_eq.symm⟩, by omega⟩
    · exact ⟨hdr, rfl, logged, ⟨hr.files, hr.talks, hr.read, fun failed _ => hr.failed failed clean'⟩,
        final hdr r_eq.symm⟩

theorem readHeaderLine_full (fd : Int) {timeoutMs : Int} (ht : timeoutMs ≠ 0) {stream : Bytes}
    (mem : newline ∈ stream) (short : (lineOf stream).length ≤ 8703) :
    wp (readHeaderLine fd timeoutMs) (delivering stream []) fun v _ l => ∃ hdr, v = .ok hdr ∧ Clean l ∧
      hdr.ok = true := by
  have arrived : (delivering stream []).arrived fd = stream := rfl
  have prompt : Prompt (delivering stream []) := ⟨rfl, by simp [delivering, Os.start]⟩
  have run := readHeaderLine_prompt fd ht prompt
    (fun line b => b.script = [] ∧ 512 ∣ line.length) (fun hdr => hdr.ok = true) ⟨rfl, by simp⟩ ?_ ?_
  · exact wp_mono run fun v _ l ⟨hdr, hv, clean, _, ok⟩ => ⟨hdr, hv, clean, ok⟩
  · rintro line b c most sofar ⟨script, whole⟩ hv script' -
    have full : most = none := by
      rw [Os.verdict, script] at hv
      exact ((Verdict.grant.injEq ..).mp hv).symm
    have chunk : chunkOf fd most b = (b.arrived fd).take 512 := by
      rw [full, chunkOf]
      simp [amount]
    have split := sofar.split
    rw [arrived] at split
    have left : newline ∈ b.arrived fd := by
      rw [split] at mem
      exact (List.mem_append.mp mem).resolve_left sofar.unbroken
    rw [chunk]
    unfold HeaderReadResult.feed
    by_cases hmem : newline ∈ (b.arrived fd).take 512
    · rw [if_pos hmem]
      exact ⟨by simp, fun r hr => by cases hr; rfl⟩
    · have size : ((b.arrived fd).take 512).length = 512 := by
        rw [List.length_take]
        by_contra hne
        exact hmem (by rwa [List.take_of_length_le (by omega)])
      have tail : (line ++ (b.arrived fd).take 512).length ≤ (lineOf stream).length := by
        have unbroken : newline ∉ line ++ (b.arrived fd).take 512 := by
          rw [List.mem_append]
          exact not_or.mpr ⟨sofar.unbroken, hmem⟩
        have front : line ++ (b.arrived fd).take 512 <+: lineOf stream := by
          rw [split, ← List.take_append_drop 512 (b.arrived fd), ← List.append_assoc, lineOf_append _ unbroken,
            List.take_append_drop]
          exact List.prefix_append _ _
        exact front.length_le
      rw [List.length_append, size] at tail
      have := sofar.short
      rw [if_neg hmem, if_neg (by rw [List.length_append, size]; omega)]
      refine ⟨fun line' hline => ?_, by simp⟩
      cases hline
      refine ⟨by rw [script', script]; rfl, ?_⟩
      rw [List.length_append, size]
      exact Nat.dvd_add whole (Nat.dvd_refl _)
  · intro line b sofar ended
    have split := sofar.split
    rw [ended, arrived, List.append_nil] at split
    exact absurd (split ▸ mem) sofar.unbroken

def byteByByte : Reply := ⟨.grant (some 1), 0⟩

theorem readHeaderLine_byteByByte (fd : Int) {timeoutMs : Int} (ht : timeoutMs ≠ 0) {stream : Bytes}
    (long : 8192 < (lineOf stream).length) :
    wp (readHeaderLine fd timeoutMs) (delivering stream (List.replicate 8193 byteByByte)) fun v _ l =>
      ∃ hdr, v = .ok hdr ∧ Clean l ∧ hdr.ok = false := by
  have arrived : (delivering stream (List.replicate 8193 byteByByte)).arrived fd = stream := rfl
  have prompt : Prompt (delivering stream (List.replicate 8193 byteByByte)) := by
    refine ⟨rfl, fun r hr => ?_⟩
    rw [List.eq_of_mem_replicate hr]
    exact ⟨⟨_, rfl⟩, rfl⟩
  have run := readHeaderLine_prompt fd ht prompt
    (fun line b => b.script = List.replicate (8193 - line.length) byteByByte) (fun hdr => hdr.ok = false)
    rfl ?_ (fun _ _ _ _ => rfl)
  · exact wp_mono run fun v _ l ⟨hdr, hv, clean, _, ok⟩ => ⟨hdr, hv, clean, ok⟩
  · intro line b c most sofar script hv script' hchunk
    have := sofar.short
    obtain ⟨n, hn⟩ := Nat.exists_eq_add_one_of_ne_zero (n := 8193 - line.length) (by omega)
    rw [hn, List.replicate_succ] at script
    have one : most = some 1 := by
      rw [Os.verdict, script] at hv
      exact ((Verdict.grant.injEq ..).mp hv).symm
    have size : (chunkOf fd most b).length = 1 := by
      have pos := List.length_pos_iff.mpr hchunk
      have le : (chunkOf fd most b).length ≤ 1 := by
        rw [one, chunkOf, List.length_take]
        simp only [amount]
        omega
      omega
    obtain ⟨x, hx⟩ := List.length_eq_one_iff.mp size
    rw [hx]
    have pre := chunkOf_prefix fd most b
    rw [hx] at pre
    obtain ⟨rest, hrest⟩ := pre
    have split := sofar.split
    rw [arrived, ← hrest] at split
    have hne : newline ∉ [x] := by
      intro hmem
      rw [List.mem_singleton] at hmem
      rw [split, ← hmem, List.singleton_append, lineOf_line _ sofar.unbroken] at long
      omega
    unfold HeaderReadResult.feed
    rw [if_neg hne]
    split
    · exact ⟨by simp, fun r hr => by cases hr; rfl⟩
    · refine ⟨fun line' hline => ?_, by simp⟩
      cases hline
      rw [script', script, List.tail_cons, List.length_append, List.length_singleton]
      congr 1
      omega

theorem Delivers.ends {fd : Int} {timeoutMs : Int} {stream : Bytes} {os : Os}
    (h : Delivers fd timeoutMs stream os) : ∃ hdr, (readHeaderLine fd timeoutMs os).value = .ok hdr ∧
      (hdr.ok = true → newline ∈ stream ∧ hdr.line = lineOf stream ∧
        hdr.leftover ++ (readHeaderLine fd timeoutMs os).state.arrived fd = restOf stream ∧
        (lineOf stream).length ≤ 8703) ∧
      (hdr.ok = false → newline ∈ stream → 8192 < (lineOf stream).length) := by
  obtain ⟨hdr, hv, reads⟩ := readHeaderLine_spec fd timeoutMs os
  have arrived := h.arrived
  refine ⟨hdr, hv, fun ok => ?_, fun failed mem => ?_⟩
  · obtain ⟨mem, line, left, size⟩ := reads.read ok
    rw [arrived] at mem line left
    exact ⟨mem, line, left, line ▸ size⟩
  · have long := reads.failed failed h.clean
    rw [arrived] at long
    exact long mem

theorem not_delivers_zero {fd : Int} {stream : Bytes} {os : Os} : ¬ Delivers fd 0 stream os := by
  intro h
  suffices late : wp (readHeaderLine fd 0) os fun _ _ l => ¬ Clean l from late h.clean
  rw [readHeaderLine, wp_get_bind]
  refine wp_loop (fun _ b l => b = os ∧ l = []) (fun _ _ => 0) ?_ _ _ os ⟨rfl, rfl⟩ (by omega)
  rintro line b l ⟨rfl, rfl⟩
  have expired : armed fd 0 (b.now + (0 : Int).toNat * 1000000) b = ⟨.ok false, b, [.expired fd]⟩ := by
    simp [armed, armRemaining]
  refine wp_seq (P := fun v _ l => v = .ok false ∧ ¬ Clean l) ?_ ?_ (by simp)
  · unfold wp
    rw [expired]
    exact ⟨rfl, by simp [Event.faulty]⟩
  · rintro ok c l ⟨hok, faulty⟩
    cases hok
    simpa using faulty

theorem readHeaderLine_segmentation (fd : Int) (timeoutMs : Int) (stream : Bytes) :
    SegmentationFree fd timeoutMs stream ↔ timeoutMs = 0 ∨ newline ∉ stream ∨
      (lineOf stream).length ≤ 8192 ∨ 8703 < (lineOf stream).length := by
  constructor
  · intro h
    by_contra hne
    simp only [not_or, not_not, not_le, not_lt] at hne
    obtain ⟨ht, mem, long, short⟩ := hne
    obtain ⟨hdr, hv, clean, ok⟩ := readHeaderLine_full fd ht mem short
    obtain ⟨hdr', hv', verdict⟩ := h.verdict _ ⟨rfl, clean⟩
    rw [hv] at hv'
    cases hv'
    have := verdict.mp ok
    omega
  · rintro (rfl | clear)
    · exact ⟨fun _ _ h => absurd h not_delivers_zero, fun _ h => absurd h not_delivers_zero⟩
    · have decided : ∀ os, Delivers fd timeoutMs stream os → ∃ hdr,
          (readHeaderLine fd timeoutMs os).value = .ok hdr ∧
          (hdr.ok = true ↔ newline ∈ stream ∧ (lineOf stream).length ≤ 8192) := by
        intro os h
        obtain ⟨hdr, hv, read, failed⟩ := h.ends
        refine ⟨hdr, hv, fun ok => ?_, fun fits => ?_⟩
        · obtain ⟨mem, -, -, size⟩ := read ok
          refine ⟨mem, ?_⟩
          rcases clear with none | le | lt
          · exact absurd mem none
          · exact le
          · omega
        · cases hok : hdr.ok with
          | true => rfl
          | false =>
            have := failed hok fits.1
            omega
      refine ⟨fun os os' h h' => ?_, decided⟩
      obtain ⟨hdr, hv, read, -⟩ := h.ends
      obtain ⟨hdr', hv', read', -⟩ := h'.ends
      obtain ⟨hdr₁, hv₁, verdict⟩ := decided os h
      obtain ⟨hdr₂, hv₂, verdict'⟩ := decided os' h'
      rw [hv] at hv₁
      rw [hv'] at hv₂
      cases hv₁
      cases hv₂
      have same : hdr.ok = true ↔ hdr'.ok = true := verdict.trans verdict'.symm
      refine ⟨hdr, hdr', hv, hv', by simpa using same, fun ok => ?_⟩
      obtain ⟨-, line, left, -⟩ := read ok
      obtain ⟨-, line', left', -⟩ := read' (same.mp ok)
      exact ⟨line, line', left, left'⟩

theorem readHeaderLine_segmentation_fails :
    ¬ SegmentationFree 7 5000 (List.replicate 8193 97 ++ [newline]) := by
  have unbroken : newline ∉ List.replicate 8193 (97 : UInt8) := fun h => by
    cases List.eq_of_mem_replicate h
  have line : lineOf (List.replicate 8193 97 ++ [newline]) = List.replicate 8193 97 := lineOf_line [] unbroken
  intro h
  have mem : newline ∈ List.replicate 8193 97 ++ [newline] :=
    List.mem_append_right _ (List.mem_singleton_self _)
  obtain ⟨hdr, hv, clean, ok⟩ := readHeaderLine_full 7 (show (5000 : Int) ≠ 0 by decide) mem
    (by rw [line, List.length_replicate]; omega)
  have long : 8192 < (lineOf (List.replicate 8193 97 ++ [newline])).length := by
    rw [line, List.length_replicate]
    omega
  obtain ⟨hdr', hv', clean', failed⟩ := readHeaderLine_byteByByte 7 (show (5000 : Int) ≠ 0 by decide) long
  obtain ⟨hdr₁, hdr₂, hv₁, hv₂, same, -⟩ := h.agree _ _ ⟨rfl, clean⟩ ⟨rfl, clean'⟩
  rw [hv] at hv₁
  rw [hv'] at hv₂
  cases hv₁
  cases hv₂
  rw [ok, failed] at same
  cases same

end LinkScheduling
