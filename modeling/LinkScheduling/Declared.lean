import LinkScheduling.Accounting

/-! A round of a GET whatever its file holds and whatever comes of its calls. What it puts on the
socket behind the header line is what the file holds from the offset on, and never more than the
size that was declared; a round that is preempted moves on, by its offset or by its deficit; and
what ends a round early is an allocation that fails. -/

namespace LinkScheduling
open Effect

def Quotes (os : Os) (file : Int) (pos : Nat) (d : Bytes) : Prop :=
  ∀ c, os.files.contentOf file = some c → d <+: c.drop pos

namespace Quotes
variable {os os' : Os} {file : Int} {pos : Nat} {d e : Bytes}

theorem nil : Quotes os file pos [] := fun _ _ => List.nil_prefix

theorem congr (h : Quotes os file pos d) (files : os'.files = os.files) : Quotes os' file pos d := by
  unfold Quotes
  rw [files]
  exact h

theorem part (h : Quotes os file pos (d ++ e)) : Quotes os file pos d :=
  fun c hc => (List.prefix_append d e).trans (h c hc)

theorem append (h : Quotes os file pos d) (h' : Quotes os file (pos + d.length) e) :
    Quotes os file pos (d ++ e) := by
  intro c hc
  obtain ⟨t, ht⟩ := h c hc
  have next := h' c hc
  rw [← List.drop_drop, ← ht, List.drop_left] at next
  rw [← ht]
  exact (List.prefix_append_right_inj d).mpr next

end Quotes

section Reading
variable {os : Os} {file : Int}

theorem pread_quotes (sock : Int) (want pos : Nat) : wp (pread file want pos) os fun v os' _ =>
    ∃ d, v = .ok d ∧ d.length ≤ want ∧ Quotes os file pos d ∧ Sends sock [] os os' := by
  rw [pread, wp_call]
  cases os.verdict with
  | fail e => exact ⟨[], rfl, Nat.zero_le _, .nil, Sends.answered sock os⟩
  | grant most =>
    cases hc : os.files.contentOf file with
    | none =>
      simp only [wp, Os.answered_files, hc]
      exact ⟨[], rfl, Nat.zero_le _, .nil, Sends.answered sock os⟩
    | some c =>
      simp only [wp, Os.answered_files, hc]
      split
      · refine ⟨_, rfl, ?_, fun c' hc' => ?_, Sends.answered sock os⟩
        · rw [List.length_take, List.length_take]
          omega
        · cases hc.symm.trans hc'
          exact (List.take_prefix _ _).trans (List.take_prefix _ _)
      · exact ⟨[], rfl, Nat.zero_le _, .nil, Sends.answered sock os⟩

theorem lineLengthAt_quotes (sock : Int) {offset size : UInt64} (lt : offset < size) :
    wp (lineLengthAt file offset size) os fun v os' _ =>
      ∃ len : UInt64, v = .ok len ∧ offset.toNat + len.toNat ≤ size.toNat ∧ Sends sock [] os os' := by
  have top := size.toNat_lt
  rw [UInt64.lt_iff_toNat_lt] at lt
  refine wp_loop (fun pos s _ => offset.toNat ≤ pos.toNat ∧ pos.toNat ≤ size.toNat ∧ Sends sock [] os s)
    (fun pos _ => size.toNat - pos.toNat) ?_ _ offset os ⟨le_refl _, by omega, Sends.refl sock os⟩ ?_
  · rintro pos s l ⟨low, high, sends⟩
    unfold lineTurn
    by_cases before : pos < size
    · have window : (min 16384 (size - pos)).toNat = min 16384 (size.toNat - pos.toNat) := by
        rw [toNat_min, UInt64.toNat_sub_of_le _ _ (UInt64.le_of_lt before)]
        rfl
      rw [if_pos before, window]
      rw [UInt64.lt_iff_toNat_lt] at before
      refine wp_seq (pread_quotes sock _ _) ?_ (by simp)
      rintro d s' l' ⟨d', hd, bound, -, sends'⟩
      cases hd
      have all := sends.trans sends'
      by_cases empty : d = []
      · rw [if_pos empty, wp_pure]
        exact ⟨0, rfl, by simpa using le_of_lt lt, all⟩
      · rw [if_neg empty]
        by_cases found : newline ∈ d
        · have index := List.idxOf_lt_length_iff.mpr found
          rw [if_pos found, wp_pure]
          refine ⟨_, rfl, ?_, all⟩
          rw [UInt64.toNat_add, UInt64.toNat_add, UInt64.toNat_sub_of_le _ _ (UInt64.le_iff_toNat_le.mpr low),
            UInt64.toNat_ofNat', UInt64.toNat_one]
          omega
        · have some_ := List.length_pos_iff.mpr empty
          have advance : (pos + UInt64.ofNat d.length).toNat = pos.toNat + d.length := by
            simp only [UInt64.toNat_add, UInt64.toNat_ofNat']
            omega
          rw [if_neg found, wp_pure]
          exact ⟨⟨by omega, by omega, all⟩, by omega⟩
    · rw [if_neg before, wp_pure]
      refine ⟨_, rfl, ?_, by simpa using sends⟩
      rw [UInt64.toNat_sub_of_le _ _ (UInt64.le_iff_toNat_le.mpr (by omega))]
      omega
  · rw [UInt64.toNat_sub_of_le _ _ (UInt64.le_iff_toNat_le.mpr (by omega))]
    omega

theorem alloc_quotes (sock : Int) : wp alloc os fun v os' l => Sends sock [] os os' ∧
    (v = .ok () ∨ v = .error .thrown ∧ .allocFailed ∈ l) := by
  rw [alloc, wp_call]
  cases os.verdict with
  | fail e => exact ⟨Sends.answered sock os, .inr ⟨rfl, List.mem_singleton_self _⟩⟩
  | grant most => exact ⟨Sends.answered sock os, .inl rfl⟩

theorem appendRange_quotes (sock : Int) {offset len : UInt64} (out : Bytes)
    (fits : offset.toNat + len.toNat < 2 ^ 64) : wp (appendRange file offset len out) os fun v os' l =>
      Sends sock [] os os' ∧ ((∃ got, v = .ok (true, out ++ got) ∧ got.length = len.toNat ∧
        Quotes os file offset.toNat got) ∨ v = .ok (false, out) ∨ v = .error .thrown ∧ .allocFailed ∈ l) := by
  refine wp_seq (alloc_quotes sock) ?_ ?_
  · rintro ⟨⟩ os₁ l₁ ⟨sends₁, -⟩
    refine wp_seq (P := fun v os' _ => Sends sock [] os₁ os' ∧ ((∃ got, v = .ok (some got) ∧ got.length = len.toNat ∧
      Quotes os₁ file offset.toNat got) ∨ v = .ok none)) ?_ ?_ ?_
    · refine wp_loop (fun got s _ => got.length ≤ len.toNat ∧ Quotes os₁ file offset.toNat got ∧ Sends sock [] os₁ s)
        (fun got _ => len.toNat - got.length) ?_ _ [] os₁ ⟨Nat.zero_le _, .nil, Sends.refl sock os₁⟩ (by simp)
      rintro got s l ⟨high, quotes, sends⟩
      have count : (UInt64.ofNat got.length).toNat = got.length := by
        rw [UInt64.toNat_ofNat']
        omega
      unfold appendTurn
      by_cases before : UInt64.ofNat got.length < len
      · have want : (len - UInt64.ofNat got.length).toNat = len.toNat - got.length := by
          rw [UInt64.toNat_sub_of_le _ _ (UInt64.le_of_lt before), count]
        have place : (offset + UInt64.ofNat got.length).toNat = offset.toNat + got.length := by
          rw [UInt64.toNat_add, count]
          omega
        rw [if_pos before, want, place]
        rw [UInt64.lt_iff_toNat_lt, count] at before
        refine wp_seq (pread_quotes sock _ _) ?_ (by simp)
        rintro d s' l' ⟨d', hd, bound, next, sends'⟩
        cases hd
        have all := sends.trans sends'
        by_cases empty : d = []
        · rw [if_pos empty, wp_pure]
          exact ⟨all, .inr rfl⟩
        · have some_ := List.length_pos_iff.mpr empty
          rw [if_neg empty, wp_pure]
          refine ⟨⟨?_, quotes.append (next.congr sends.files.symm), all⟩, ?_⟩
          · rw [List.length_append]
            omega
          · rw [List.length_append]
            omega
      · rw [if_neg before, wp_pure]
        rw [UInt64.lt_iff_toNat_lt, count] at before
        exact ⟨by simpa using sends, .inl ⟨got, rfl, by omega, quotes⟩⟩
    · rintro r os₂ l₂ ⟨sends₂, ⟨got, hr, length, quotes⟩ | hr⟩
      · cases hr
        exact ⟨sends₁.trans sends₂, .inl ⟨got, rfl, length, quotes.congr sends₁.files.symm⟩⟩
      · cases hr
        exact ⟨sends₁.trans sends₂, .inr (.inl rfl)⟩
    · rintro e os₂ l₂ ⟨-, ⟨got, hr, -⟩ | hr⟩
      · cases hr
      · cases hr
  · rintro e os₁ l₁ ⟨sends₁, hv | ⟨hv, failed⟩⟩
    · cases hv
    · cases hv
      exact ⟨sends₁, .inr (.inr ⟨rfl, failed⟩)⟩

theorem sendAll_quotes (sock : Int) (data : Bytes) : wp (sendAll sock data) os fun v os' _ =>
    ∃ ok out, v = .ok ok ∧ out <+: data ∧ (ok = true → out = data) ∧ Sends sock out os os' := by
  refine wp_mono (sendAll_spec sock data os) ?_
  rintro v os' l ⟨ok, hv, sentAll⟩
  obtain ⟨out, part, whole, talks⟩ := sentAll.sent
  refine ⟨ok, out, hv, part, whole, sentAll.files, talks.peer, ?_, talks.sent⟩
  simpa using talks.recvd

theorem flush_quotes (sock : Int) (b : Batch) : wp (b.flush sock) os fun v os' _ =>
    ∃ ok out, v = .ok ok ∧ out <+: b.data ∧ (ok = true → out = b.data) ∧ Sends sock out os os' := by
  unfold Batch.flush
  split
  · rename_i empty
    rw [wp_pure]
    exact ⟨true, [], rfl, List.nil_prefix, fun _ => empty.symm, Sends.refl sock os⟩
  · exact sendAll_quotes sock b.data

theorem streamRange_quotes (sock : Int) {offset len : UInt64} (fits : offset.toNat + len.toNat < 2 ^ 64) :
    wp (streamRange file sock offset len) os fun v os' l => ∃ data, Sends sock data os os' ∧
      data.length ≤ len.toNat ∧ Quotes os file offset.toNat data ∧
      (v = .ok true ∧ data.length = len.toNat ∨ v = .ok false ∨ v = .error .thrown ∧ .allocFailed ∈ l) := by
  refine wp_seq (alloc_quotes sock) ?_ ?_
  · rintro ⟨⟩ os₁ l₁ ⟨sends₁, -⟩
    refine wp_mono (P := fun v os' _ => ∃ data, Sends sock data os₁ os' ∧ data.length ≤ len.toNat ∧
      Quotes os₁ file offset.toNat data ∧ (v = .ok true ∧ data.length = len.toNat ∨ v = .ok false)) ?_ ?_
    · refine wp_loop (fun done s _ => done.toNat ≤ len.toNat ∧ ∃ data, Sends sock data os₁ s ∧
          data.length = done.toNat ∧ Quotes os₁ file offset.toNat data)
        (fun done _ => len.toNat - done.toNat) ?_ _ 0 os₁ ⟨Nat.zero_le _, [], Sends.refl sock os₁, rfl, .nil⟩ (by simp)
      rintro done s l ⟨high, data, sends, length, quotes⟩
      unfold streamTurn
      by_cases before : done < len
      · have want : (min (min len kChunk) (len - done)).toNat ≤ len.toNat - done.toNat := by
          rw [toNat_min, UInt64.toNat_sub_of_le _ _ (UInt64.le_of_lt before)]
          exact Nat.min_le_right _ _
        have place : (offset + done).toNat = offset.toNat + data.length := by
          rw [UInt64.toNat_add, length]
          omega
        rw [if_pos before, place]
        refine wp_seq (pread_quotes sock _ _) ?_ (by simp)
        rintro d s' l' ⟨d', hd, bound, next, sends'⟩
        cases hd
        have both := quotes.append (next.congr sends.files.symm)
        by_cases empty : d = []
        · rw [if_pos empty, wp_pure]
          exact ⟨data, by simpa using sends.trans sends', by omega, quotes, .inr rfl⟩
        · rw [if_neg empty]
          refine wp_seq (sendAll_quotes sock d) ?_ (by simp)
          rintro ok s'' l'' ⟨ok', out, hok, part, whole, sends''⟩
          cases hok
          have short := part.length_le
          have all := (sends.trans sends').trans sends''
          rw [List.append_nil] at all
          obtain ⟨rest, hrest⟩ := part
          split
          · rename_i sent
            rw [whole sent] at all
            have some_ := List.length_pos_iff.mpr empty
            have advance : (done + UInt64.ofNat d.length).toNat = done.toNat + d.length := by
              have top := len.toNat_lt
              simp only [UInt64.toNat_add, UInt64.toNat_ofNat']
              omega
            rw [wp_pure]
            refine ⟨⟨by omega, data ++ d, all, ?_, both⟩, by omega⟩
            rw [List.length_append, advance, length]
          · rw [wp_pure]
            rw [← hrest, ← List.append_assoc] at both
            refine ⟨data ++ out, all, ?_, both.part, .inr rfl⟩
            rw [List.length_append]
            omega
      · rw [if_neg before, wp_pure]
        rw [UInt64.lt_iff_toNat_lt] at before
        exact ⟨data, sends, by omega, quotes, .inl ⟨rfl, by omega⟩⟩
    · rintro v os₂ l₂ ⟨data, sends₂, bound, quotes, result⟩
      exact ⟨data, sends₁.trans sends₂, bound, quotes.congr sends₁.files.symm, result.imp id .inl⟩
  · rintro e os₁ l₁ ⟨sends₁, hv | ⟨hv, failed⟩⟩
    · cases hv
    · cases hv
      exact ⟨[], sends₁, Nat.zero_le _, .nil, .inr (.inr ⟨rfl, failed⟩)⟩

end Reading

/-- Behind what was `pending`, `got` has been taken from the file: of both together all but `left`
has gone out. -/
def Passes (fd : Int) (pending got left : Bytes) (a b : Os) : Prop :=
  ∃ data, Sends fd data a b ∧ data ++ left = pending ++ got

section Loop
variable {fd : Int} {sp : SliceParams} {j : Job}

theorem flush_passes (b : Batch) (os : Os) : wp (b.flush fd) os fun v os' _ =>
    ∃ ok left, v = .ok ok ∧ Passes fd b.data [] left os os' ∧ (ok = true → left = []) := by
  refine wp_mono (flush_quotes fd b) ?_
  rintro v os' l ⟨ok, out, hv, ⟨left, hleft⟩, whole, sends⟩
  refine ⟨ok, left, hv, ⟨out, sends, by rw [hleft, List.append_nil]⟩, fun hok => ?_⟩
  rw [whole hok] at hleft
  simpa using hleft

theorem emitLine_passes (b : Batch) {len : UInt64} (fits : j.req.byteOffset.toNat + len.toNat < 2 ^ 64) :
    wp (emitLine fd sp b len) j fun v j' l => j'.req = j.req ∧ ∃ got left,
      Quotes j.os j.req.fileFd j.req.byteOffset.toNat got ∧ got.length ≤ len.toNat ∧
      Passes fd b.data got left j.os j'.os ∧
      ((∃ b' : Batch, v = .ok (some b') ∧ b'.data = left ∧ got.length = len.toNat) ∨ v = .ok none ∨
        v = .error .thrown ∧ .allocFailed ∈ l) := by
  unfold emitLine
  rw [wp_request_bind]
  split
  · refine wp_seq (onOs_spec (flush_passes b j.os)) ?_ (by simp)
    rintro ok ⟨req, os₁⟩ l₁ ⟨rfl, ok', left, hok, ⟨out, sends₁, hout⟩, whole⟩
    cases hok
    rw [List.append_nil] at hout
    split
    · rename_i flushed
      rw [whole flushed, List.append_nil] at hout
      subst hout
      refine wp_seq (onOs_spec (streamRange_quotes fd fits)) ?_ ?_
      · rintro ok ⟨req, os₂⟩ l₂ ⟨same, data, sends₂, bound, quotes, result⟩
        simp only at same sends₂
        subst same
        have passes : Passes fd b.data data [] j.os os₂ := ⟨_, sends₁.trans sends₂, List.append_nil _⟩
        have quotes := quotes.congr sends₁.files.symm
        rcases result with ⟨hok, exact_⟩ | hok | ⟨hok, -⟩
        · cases hok
          exact ⟨rfl, data, [], quotes, bound, passes, .inl ⟨{}, rfl, rfl, exact_⟩⟩
        · cases hok
          exact ⟨rfl, data, [], quotes, bound, passes, .inr (.inl rfl)⟩
        · cases hok
      · rintro e ⟨req, os₂⟩ l₂ ⟨same, data, sends₂, bound, quotes, result⟩
        simp only at same sends₂
        subst same
        rcases result with ⟨hok, -⟩ | hok | ⟨hok, failed⟩
        · cases hok
        · cases hok
        · cases hok
          exact ⟨rfl, data, [], quotes.congr sends₁.files.symm, bound, ⟨_, sends₁.trans sends₂, List.append_nil _⟩,
            .inr (.inr ⟨rfl, List.mem_append_right _ failed⟩)⟩
    · exact ⟨rfl, [], left, .nil, Nat.zero_le _, ⟨out, sends₁, by rw [hout, List.append_nil]⟩, .inr (.inl rfl)⟩
  · refine wp_seq (onOs_spec (appendRange_quotes fd b.data fits)) ?_ ?_
    · rintro ⟨ok, data⟩ ⟨req, os₁⟩ l₁ ⟨same, sends₁, result⟩
      simp only at same sends₁
      subst same
      rcases result with ⟨got, hok, exact_, quotes⟩ | hok | ⟨hok, -⟩
      · cases hok
        simp only [if_true]
        have kept : Passes fd b.data got (b.data ++ got) j.os os₁ := ⟨[], sends₁, rfl⟩
        split
        · refine wp_seq (onOs_spec (flush_passes _ os₁)) ?_ (by simp)
          rintro ok ⟨req, os₂⟩ l₂ ⟨same, ok', left, hok, ⟨out, sends₂, hout⟩, whole⟩
          simp only at same sends₂ hout
          cases hok
          subst same
          rw [List.append_nil] at hout
          have passes : Passes fd b.data got left j.os os₂ := ⟨out, sends₁.trans sends₂, hout⟩
          split
          · exact ⟨rfl, got, left, quotes, exact_.le, passes, .inl ⟨{}, rfl, (whole ‹_›).symm, exact_⟩⟩
          · exact ⟨rfl, got, left, quotes, exact_.le, passes, .inr (.inl rfl)⟩
        · exact ⟨rfl, got, _, quotes, exact_.le, kept, .inl ⟨_, rfl, rfl, exact_⟩⟩
      · cases hok
        exact ⟨rfl, [], b.data, .nil, Nat.zero_le _, ⟨[], sends₁, by simp⟩, .inr (.inl rfl)⟩
      · cases hok
    · rintro e ⟨req, os₁⟩ l₁ ⟨same, sends₁, result⟩
      simp only at same sends₁
      subst same
      rcases result with ⟨got, hok, -⟩ | hok | ⟨hok, failed⟩
      · cases hok
      · cases hok
      · cases hok
        exact ⟨rfl, [], b.data, .nil, Nat.zero_le _, ⟨[], sends₁, by simp⟩, .inr (.inr ⟨rfl, failed⟩)⟩

/-- Since `j₀` the bytes `got` have been taken from the file, and have gone out up to `left`. -/
structure Drawn (fd : Int) (j₀ : Job) (got left : Bytes) (os : Os) : Prop where
  quotes : Quotes j₀.os j₀.req.fileFd j₀.req.byteOffset.toNat got
  passes : Passes fd [] got left j₀.os os

theorem Drawn.files {j₀ : Job} {got left : Bytes} {os : Os} (h : Drawn fd j₀ got left os) :
    os.files = j₀.os.files := by
  obtain ⟨data, sends, -⟩ := h.passes
  exact sends.files

theorem Drawn.more {j₀ : Job} {got more left left' : Bytes} {os os' : Os} (h : Drawn fd j₀ got left os)
    (next : Quotes os j₀.req.fileFd (j₀.req.byteOffset.toNat + got.length) more)
    (passes : Passes fd left more left' os os') : Drawn fd j₀ (got ++ more) left' os' where
  quotes := h.quotes.append (next.congr h.files.symm)
  passes := by
    obtain ⟨data, sends, hdata⟩ := h.passes
    obtain ⟨data', sends', hdata'⟩ := passes
    refine ⟨data ++ data', sends.trans sends', ?_⟩
    rw [List.append_assoc, hdata', ← List.append_assoc, hdata, List.append_assoc]

theorem Drawn.still {j₀ : Job} {got left : Bytes} {os os' : Os} (h : Drawn fd j₀ got left os)
    (sends : Sends fd [] os os') : Drawn fd j₀ got left os' := by
  have same : Passes fd left [] left os os' := ⟨[], sends, by simp⟩
  have more := h.more .nil same
  rwa [List.append_nil] at more

/-- The loop has come to `j`: what it took is what the offset has moved by. -/
structure Along (fd : Int) (j₀ : Job) (left : Bytes) (j : Job) : Prop where
  req : j.req = { j₀.req with byteOffset := j.req.byteOffset }
  low : j₀.req.byteOffset.toNat ≤ j.req.byteOffset.toNat
  high : j.req.byteOffset.toNat ≤ j₀.req.bytes.toNat
  drawn : ∃ got, j₀.req.byteOffset.toNat + got.length = j.req.byteOffset.toNat ∧ Drawn fd j₀ got left j.os

structure Spending (sp : SliceParams) (j₀ j : Job) (v : GetLocals) : Prop where
  sent : j₀.req.byteOffset.toNat + v.sentThisRound.toNat = j.req.byteOffset.toNat
  left : bounded sp.policy = true →
    v.left.toNat + v.sentThisRound.toNat = (allowance sp j₀.req.deficit).toNat

structure Preempts (sp : SliceParams) (r r' : Request) : Prop where
  policy : bounded sp.policy = true
  unfinished : r'.byteOffset.toNat < r'.bytes.toNat
  rr : sp.policy = .rr → r.byteOffset.toNat < r'.byteOffset.toNat ∧ r'.deficit = r.deficit
  drr : sp.policy = .drr → r'.byteOffset.toNat + r'.deficit.toNat =
    r.byteOffset.toNat + r.deficit.toNat + sp.quantum.toNat ∧
    r'.byteOffset.toNat + r'.deficit.toNat < r'.bytes.toNat

structure GetEnd (fd : Int) (sp : SliceParams) (j : Job) (v : Except Fault SliceResult) (j' : Job) (l : List Event) :
    Prop where
  req : ∃ offset deficit forfeited, j'.req =
    { j.req with byteOffset := offset, deficit := deficit, forfeitedBytes := forfeited }
  low : j.req.byteOffset.toNat ≤ j'.req.byteOffset.toNat
  high : j'.req.byteOffset.toNat ≤ j.req.bytes.toNat
  body : ∃ data, Sends fd data j.os j'.os ∧ j.req.byteOffset.toNat + data.length ≤ j.req.bytes.toNat ∧
    Quotes j.os j.req.fileFd j.req.byteOffset.toNat data ∧
    (v = .ok .done ∨ v = .ok .preempted → j.req.byteOffset.toNat + data.length = j'.req.byteOffset.toNat)
  done : v = .ok .done → j'.req.byteOffset = j.req.bytes
  preempted : v = .ok .preempted → Preempts sp j.req j'.req
  stopped : ∀ e, v = .error e → e = .thrown ∧ .allocFailed ∈ l

theorem GetEnd.after {j' : Job} {v : Except Fault SliceResult} {l : List Event} (before : List Event)
    (h : GetEnd fd sp j v j' l) : GetEnd fd sp j v j' (before ++ l) :=
  { h with stopped := fun e hv => ⟨(h.stopped e hv).1, List.mem_append_right _ (h.stopped e hv).2⟩ }

namespace Along
variable {j₀ j' : Job} {left : Bytes} {v : GetLocals} {l : List Event}

theorem bytes (h : Along fd j₀ left j) : j.req.bytes = j₀.req.bytes := by rw [h.req]

theorem fileFd (h : Along fd j₀ left j) : j.req.fileFd = j₀.req.fileFd := by rw [h.req]

theorem still (h : Along fd j₀ left j) {os : Os} (sends : Sends fd [] j.os os) : Along fd j₀ left ⟨j.req, os⟩ where
  req := h.req
  low := h.low
  high := h.high
  drawn := by
    obtain ⟨got, length, drawn⟩ := h.drawn
    exact ⟨got, length, drawn.still sends⟩

theorem flushed (h : Along fd j₀ left j) {os : Os} {left' : Bytes} (passes : Passes fd left [] left' j.os os) :
    Along fd j₀ left' ⟨j.req, os⟩ where
  req := h.req
  low := h.low
  high := h.high
  drawn := by
    obtain ⟨got, length, drawn⟩ := h.drawn
    have more := drawn.more .nil passes
    rw [List.append_nil] at more
    exact ⟨got, length, more⟩

theorem falls (h : Along fd j₀ left j) {w : Except Fault SliceResult} (fallen : Fallen w) {len : Nat} {got lost : Bytes}
    (req : ∃ offset, j'.req = { j₀.req with byteOffset := offset } ∧ j₀.req.byteOffset.toNat ≤ offset.toNat ∧
      offset.toNat ≤ j₀.req.bytes.toNat)
    (quotes : Quotes j.os j.req.fileFd j.req.byteOffset.toNat got) (bound : got.length ≤ len)
    (within : j.req.byteOffset.toNat + len ≤ j.req.bytes.toNat) (passes : Passes fd left got lost j.os j'.os)
    (stopped : ∀ e, w = .error e → e = .thrown ∧ .allocFailed ∈ l) : GetEnd fd sp j₀ w j' l where
  req := by
    obtain ⟨offset, same, -⟩ := req
    exact ⟨offset, j₀.req.deficit, j₀.req.forfeitedBytes, same⟩
  low := by
    obtain ⟨offset, same, low, -⟩ := req
    rw [same]
    exact low
  high := by
    obtain ⟨offset, same, -, high⟩ := req
    rw [same]
    exact high
  body := by
    obtain ⟨before, length, drawn⟩ := h.drawn
    rw [h.fileFd, ← length] at quotes
    have all := drawn.more quotes passes
    obtain ⟨data, sends, hdata⟩ := all.passes
    have whole := congrArg List.length hdata
    simp only [List.nil_append, List.length_append] at whole
    rw [h.bytes] at within
    refine ⟨data, sends, by omega, ?_, fun ended => ?_⟩
    · have quotes := all.quotes
      rw [← List.nil_append (before ++ got), ← hdata] at quotes
      exact quotes.part
    · rcases ended with ended | ended
      · exact absurd ended fallen.1
      · exact absurd ended fallen.2
  done ended := absurd ended fallen.1
  preempted ended := absurd ended fallen.2
  stopped := stopped

theorem fails (h : Along fd j₀ left j) {os : Os} {lost : Bytes} (passes : Passes fd left [] lost j.os os) :
    GetEnd fd sp j₀ (.ok .failed) ⟨j.req, os⟩ l := by
  refine h.falls fallen_failed ⟨_, h.req, h.low, h.high⟩ .nil (show [].length ≤ 0 from Nat.le_refl _) ?_ passes (by simp)
  rw [h.bytes]
  exact h.high

theorem whole (h : Along fd j₀ [] j) : ∃ data, Sends fd data j₀.os j.os ∧
    j₀.req.byteOffset.toNat + data.length = j.req.byteOffset.toNat ∧
    Quotes j₀.os j₀.req.fileFd j₀.req.byteOffset.toNat data := by
  obtain ⟨got, length, drawn⟩ := h.drawn
  obtain ⟨data, sends, hdata⟩ := drawn.passes
  rw [List.append_nil, List.nil_append] at hdata
  exact ⟨data, sends, by rw [hdata, length], hdata ▸ drawn.quotes⟩

theorem moves (h : Along fd j₀ left j) {len : UInt64} {got left' : Bytes} {os : Os}
    (quotes : Quotes j.os j.req.fileFd j.req.byteOffset.toNat got) (exact_ : got.length = len.toNat)
    (within : j.req.byteOffset.toNat + len.toNat ≤ j.req.bytes.toNat) (passes : Passes fd left got left' j.os os) :
    Along fd j₀ left' ⟨{ j.req with byteOffset := j.req.byteOffset + len }, os⟩ ∧
      (j.req.byteOffset + len).toNat = j.req.byteOffset.toNat + len.toNat := by
  have top := j.req.bytes.toNat_lt
  have moved : (j.req.byteOffset + len).toNat = j.req.byteOffset.toNat + len.toNat := by
    rw [UInt64.toNat_add]
    omega
  obtain ⟨before, length, drawn⟩ := h.drawn
  rw [h.bytes] at within
  refine ⟨⟨?_, ?_, ?_, before ++ got, ?_, ?_⟩, moved⟩
  · rw [h.req]
  · rw [moved]
    exact h.low.trans (Nat.le_add_right _ _)
  · rw [moved]
    exact within
  · rw [moved, List.length_append, exact_]
    omega
  · apply drawn.more ?_ passes
    rw [length, ← h.fileFd]
    exact quotes

theorem completes (h : Along fd j₀ [] j) {r' : Request} {res : SliceResult}
    (req : ∃ deficit forfeited, r' = { j.req with deficit := deficit, forfeitedBytes := forfeited })
    (done : res = .done → j.req.byteOffset.toNat = j₀.req.bytes.toNat)
    (preempted : res = .preempted → Preempts sp j₀.req r') : GetEnd fd sp j₀ (.ok res) ⟨r', j.os⟩ l := by
  obtain ⟨deficit, forfeited, rfl⟩ := req
  obtain ⟨data, sends, length, quotes⟩ := h.whole
  refine ⟨⟨j.req.byteOffset, deficit, forfeited, ?_⟩, h.low, h.high, ⟨data, sends, ?_, quotes, fun _ => length⟩,
    fun ended => ?_, fun ended => ?_, by simp⟩
  · rw [h.req]
  · rw [length]
    exact h.high
  · exact UInt64.toNat_inj.mp (done (Except.ok.inj ended))
  · exact preempted (Except.ok.inj ended)

end Along

theorem logA14Fire_quotes (sock : Int) (id : Nat) (name : Bytes) (len quantum : UInt64) (os : Os) :
    wp (logA14Fire id name len quantum) os fun v os' l => Sends sock [] os os' ∧
      (v = .ok () ∨ v = .error .thrown ∧ .allocFailed ∈ l) := by
  refine wp_seq (alloc_quotes sock) ?_ ?_
  · rintro ⟨⟩ os₁ l₁ ⟨sends, -⟩
    exact ⟨sends, .inl rfl⟩
  · rintro e os₁ l₁ ⟨sends, hv | ⟨hv, failed⟩⟩
    · cases hv
    · cases hv
      exact ⟨sends, .inr ⟨rfl, failed⟩⟩

section Turn
variable {j₀ : Job} {v : GetLocals}

theorem longLine_logged (h : Along fd j₀ [] j) (hp : sp.policy = .rr) (id : Nat) (name : Bytes) (len : UInt64)
    (moved : j₀.req.byteOffset.toNat < j.req.byteOffset.toNat) : wp (do
      onOs (logA14Fire id name len sp.quantum)
      let r ← request
      pure (if r.byteOffset ≥ r.bytes then .done else .preempted) : Slice SliceResult) j fun r j' l =>
        GetEnd fd sp j₀ r j' l := by
  refine wp_seq (onOs_spec (logA14Fire_quotes fd id name len sp.quantum j.os)) ?_ ?_
  · rintro ⟨⟩ ⟨req, os₁⟩ l₁ ⟨rfl, sends, -⟩
    have h₁ := h.still sends
    rw [wp_request_bind, wp_pure]
    refine h₁.completes ⟨j.req.deficit, j.req.forfeitedBytes, rfl⟩ (fun done => ?_) fun preempted => ?_
    · split at done
      · rename_i full
        rw [ge_iff_le, UInt64.le_iff_toNat_le, h.bytes] at full
        exact Nat.le_antisymm h.high full
      · cases done
    · split at preempted
      · cases preempted
      · rename_i more
        rw [ge_iff_le, UInt64.le_iff_toNat_le] at more
        refine ⟨by rw [hp]; rfl, Nat.lt_of_not_le more, fun _ => ⟨moved, by rw [h.req]⟩, fun drr => ?_⟩
        rw [hp] at drr
        cases drr
  · rintro e ⟨req, os₁⟩ l₁ ⟨rfl, sends, hv | ⟨hv, failed⟩⟩
    · cases hv
    · cases hv
      have h₁ := h.still sends
      refine h₁.falls (fallen_error _) ⟨_, h.req, h.low, h.high⟩ .nil (show [].length ≤ 0 from Nat.le_refl _) ?_
        ⟨[], Sends.refl fd os₁, rfl⟩ fun e he => ?_
      · rw [h₁.bytes]
        exact h₁.high
      · cases he
        exact ⟨rfl, failed⟩

theorem sendLongLine_ends (h : Along fd j₀ v.batch.data j) (hp : sp.policy = .rr) {len : UInt64} (pos : 0 < len.toNat)
    (within : j.req.byteOffset.toNat + len.toNat ≤ j.req.bytes.toNat) :
    wp (sendLongLine fd sp v len) j fun r j' l => GetEnd fd sp j₀ r j' l := by
  have top := j.req.bytes.toNat_lt
  unfold sendLongLine
  rw [wp_request_bind]
  refine wp_seq (onOs_spec (flush_passes v.batch j.os)) ?_ (by simp)
  rintro ok ⟨req, os₁⟩ l₁ ⟨rfl, ok', left, hok, passes, whole⟩
  cases hok
  have h₁ := h.flushed passes
  split
  · rename_i flushed
    rw [whole flushed] at h₁
    refine wp_seq (onOs_spec (streamRange_quotes fd (by omega))) ?_ ?_
    · rintro ok ⟨req, os₂⟩ l₂ ⟨same, data, sends, bound, quotes, result⟩
      simp only at same sends
      subst same
      have out : Passes fd [] data [] os₁ os₂ := ⟨data, sends, by simp⟩
      rcases result with ⟨hok, exact_⟩ | hok | ⟨hok, -⟩
      · cases hok
        obtain ⟨h₂, moved⟩ := h₁.moves quotes exact_ within out
        simp only [if_true]
        rw [wp_setRequest_bind]
        refine wp_mono (longLine_logged h₂ hp _ _ _ ?_) fun r j' l ended => (ended.after l₂).after l₁
        have low := h.low
        simp only [moved]
        omega
      · cases hok
        simp only [Bool.false_eq_true, if_false, wp_pure]
        exact h₁.falls fallen_failed ⟨_, h.req, h.low, h.high⟩ quotes bound within out (by simp)
      · cases hok
    · rintro e ⟨req, os₂⟩ l₂ ⟨same, data, sends, bound, quotes, result⟩
      simp only at same sends
      subst same
      rcases result with ⟨hok, -⟩ | hok | ⟨hok, failed⟩
      · cases hok
      · cases hok
      · cases hok
        have out : Passes fd [] data [] os₁ os₂ := ⟨data, sends, by simp⟩
        refine h₁.falls (fallen_error _) ⟨_, h.req, h.low, h.high⟩ quotes bound within out fun e he => ?_
        cases he
        exact ⟨rfl, List.mem_append_right _ failed⟩
  · exact h.fails passes

theorem endRound_ends (h : Along fd j₀ v.batch.data j) (spends : Spending sp j₀ j v) (hb : bounded sp.policy = true)
    {len : UInt64} (within : j.req.byteOffset.toNat + len.toNat ≤ j.req.bytes.toNat) (over_ : v.left.toNat < len.toNat)
    (moved : sp.policy = .rr → j₀.req.byteOffset.toNat < j.req.byteOffset.toNat) :
    wp (endRound fd sp v) j fun r j' l => GetEnd fd sp j₀ r j' l := by
  unfold endRound
  refine wp_seq (onOs_spec (flush_passes v.batch j.os)) ?_ (by simp)
  rintro ok ⟨req, os₁⟩ l₁ ⟨rfl, ok', left, hok, passes, whole⟩
  cases hok
  have h₁ := h.flushed passes
  have less : j.req.byteOffset.toNat < j.req.bytes.toNat := by omega
  split
  · rename_i flushed
    rw [whole flushed] at h₁
    split
    · rename_i hp
      rw [wp_setRequest_bind, wp_pure]
      refine h₁.completes ⟨j.req.deficit, j.req.forfeitedBytes + v.left, rfl⟩ (fun done => by cases done) fun _ => ?_
      refine ⟨hb, less, fun _ => ⟨moved hp, by rw [h.req]⟩, fun drr => ?_⟩
      rw [hp] at drr
      cases drr
    · rename_i hp
      rw [wp_setRequest_bind, wp_pure]
      refine h₁.completes ⟨v.left, j.req.forfeitedBytes, rfl⟩ (fun done => by cases done) fun _ => ?_
      refine ⟨hb, less, fun rr => absurd rr hp, fun drr => ?_⟩
      have spent := spends.left hb
      have sent := spends.sent
      rw [allowance_drr drr] at spent
      have top := j.req.bytes.toNat_lt
      simp only
      omega
  · exact h.fails passes

theorem finishGet_completes (h : Along fd j₀ v.batch.data j) (full : ¬ j.req.byteOffset < j.req.bytes) :
    wp (finishGet fd v) j fun r j' l => GetEnd fd sp j₀ r j' l := by
  unfold finishGet
  refine wp_seq (onOs_spec (flush_passes v.batch j.os)) ?_ (by simp)
  rintro ok ⟨req, os₁⟩ l₁ ⟨rfl, ok', left, hok, passes, whole⟩
  cases hok
  split
  · rename_i flushed
    have h₁ := h.flushed passes
    rw [whole flushed] at h₁
    rw [wp_setRequest_bind, wp_pure]
    refine h₁.completes ⟨0, j.req.forfeitedBytes, rfl⟩ (fun _ => ?_) fun preempted => by cases preempted
    rw [UInt64.lt_iff_toNat_lt, h.bytes] at full
    exact Nat.le_antisymm h.high (Nat.le_of_not_lt full)
  · exact h.fails passes

/-- How a turn of the loop ends: the loop moves on from `j`, or is over. -/
def TurnEnd (fd : Int) (sp : SliceParams) (j₀ j : Job) (j' : Job) (l : List Event) :
    Except Fault (GetLocals ⊕ SliceResult) → Prop
  | .ok (.inl v') => Along fd j₀ v'.batch.data j' ∧ Spending sp j₀ j' v' ∧
      j.req.byteOffset.toNat < j'.req.byteOffset.toNat
  | .ok (.inr res) => GetEnd fd sp j₀ (.ok res) j' l
  | .error e => GetEnd fd sp j₀ (.error e) j' l

theorem GetEnd.turn {x : Slice SliceResult} (h : wp x j fun r j' l => GetEnd fd sp j₀ r j' l) :
    wp (.inr <$> x : Slice (GetLocals ⊕ SliceResult)) j fun r j' l => TurnEnd fd sp j₀ j j' l r := by
  refine wp_seq h ?_ fun e j' l ended => ended
  intro res j' l ended
  change TurnEnd fd sp j₀ j j' (l ++ []) (.ok (.inr res))
  rw [List.append_nil]
  exact ended

theorem sendLine_moves_on (h : Along fd j₀ v.batch.data j) (spends : Spending sp j₀ j v) {len : UInt64}
    (pos : 0 < len.toNat) (within : j.req.byteOffset.toNat + len.toNat ≤ j.req.bytes.toNat)
    (fits : bounded sp.policy = true → len.toNat ≤ v.left.toNat) :
    wp (sendLine fd sp v len) j fun r j' l => TurnEnd fd sp j₀ j j' l r := by
  have top := j.req.bytes.toNat_lt
  unfold sendLine
  refine wp_seq (emitLine_passes v.batch (by omega)) ?_ ?_
  · rintro r ⟨req, os₁⟩ l₁ ⟨same, got, left, quotes, bound, passes, result⟩
    simp only at same passes
    subst same
    rcases result with ⟨b, hr, hb, exact_⟩ | hr | ⟨hr, -⟩
    · cases hr
      subst hb
      obtain ⟨h₁, moved⟩ := h.moves quotes exact_ within passes
      have sent := spends.sent
      simp only
      rw [wp_setRequest_bind, wp_pure]
      refine ⟨h₁, ⟨?_, fun hb => ?_⟩, ?_⟩
      · simp only [moved, UInt64.toNat_add]
        omega
      · have left := spends.left hb
        have fits := fits hb
        have small := (allowance sp j₀.req.deficit).toNat_lt
        simp only [hb, if_true]
        rw [UInt64.toNat_sub_of_le _ _ (UInt64.le_iff_toNat_le.mpr fits), UInt64.toNat_add]
        omega
      · simp only [moved]
        omega
    · cases hr
      simp only [wp_pure]
      exact h.falls fallen_failed ⟨_, h.req, h.low, h.high⟩ quotes bound within passes (by simp)
    · cases hr
  · rintro e ⟨req, os₁⟩ l₁ ⟨same, got, left, quotes, bound, passes, result⟩
    simp only at same passes
    subst same
    rcases result with ⟨b, hr, -⟩ | hr | ⟨hr, failed⟩
    · cases hr
    · cases hr
    · cases hr
      refine h.falls (fallen_error _) ⟨_, h.req, h.low, h.high⟩ quotes bound within passes fun e he => ?_
      cases he
      exact ⟨rfl, failed⟩

theorem getTurn_moves_on (h : Along fd j₀ v.batch.data j) (spends : Spending sp j₀ j v) :
    wp (getTurn fd sp v) j fun r j' l => TurnEnd fd sp j₀ j j' l r := by
  unfold getTurn
  rw [wp_request_bind]
  by_cases more : j.req.byteOffset < j.req.bytes
  · rw [if_pos more]
    refine wp_seq (onOs_spec (lineLengthAt_quotes fd more)) ?_ (by simp)
    rintro len ⟨req, os₁⟩ l₁ ⟨rfl, len', hlen, within, sends⟩
    cases hlen
    have h₁ := h.still sends
    have spends₁ : Spending sp j₀ ⟨j.req, os₁⟩ v := ⟨spends.sent, spends.left⟩
    by_cases zero : len = 0
    · rw [if_pos zero, wp_pure]
      have kept : Passes fd v.batch.data [] v.batch.data os₁ os₁ := ⟨[], Sends.refl fd os₁, by simp⟩
      exact h₁.fails kept
    · have pos : 0 < len.toNat := Nat.pos_of_ne_zero fun h => zero (UInt64.toNat_inj.mp h)
      rw [if_neg zero]
      by_cases long : sp.policy = .rr ∧ v.sentThisRound = 0 ∧ len > sp.quantum
      · rw [if_pos long]
        refine wp_mono (GetEnd.turn (sendLongLine_ends h₁ long.1 pos within)) ?_
        rintro (e | r | res) j' l' ended
        · exact ended.after l₁
        · exact ended
        · exact ended.after l₁
      · rw [if_neg long]
        by_cases spent : bounded sp.policy = true ∧ len > v.left
        · have over_ : v.left.toNat < len.toNat := UInt64.lt_iff_toNat_lt.mp spent.2
          rw [if_pos spent]
          refine wp_mono (GetEnd.turn (endRound_ends h₁ spends₁ spent.1 within over_ fun hp => ?_)) ?_
          · -- the first line fits, or it has taken the escape
            have sent := spends.sent
            have left := spends.left spent.1
            rw [allowance_rr hp] at left
            by_contra still
            have none : v.sentThisRound.toNat = 0 := by
              simp only at still
              omega
            refine long ⟨hp, UInt64.toNat_inj.mp none, UInt64.lt_iff_toNat_lt.mpr ?_⟩
            omega
          · rintro (e | r | res) j' l' ended
            · exact ended.after l₁
            · exact ended
            · exact ended.after l₁
        · rw [if_neg spent]
          have fits : bounded sp.policy = true → len.toNat ≤ v.left.toNat := by
            intro hb
            by_contra less
            exact spent ⟨hb, UInt64.lt_iff_toNat_lt.mpr (Nat.lt_of_not_le less)⟩
          refine wp_mono (sendLine_moves_on h₁ spends₁ pos within fits) ?_
          rintro (e | r | res) j' l' ended
          · exact ended.after l₁
          · exact ended
          · exact ended.after l₁
  · rw [if_neg more]
    exact GetEnd.turn (finishGet_completes h more)

theorem getLoop_ends (within : j.req.byteOffset.toNat ≤ j.req.bytes.toNat) :
    wp (Prog.loop .spent (getTurn fd sp) ((j.req.bytes - j.req.byteOffset).toNat + 1)
      { left := allowance sp j.req.deficit }) j fun r j' l => GetEnd fd sp j r j' l := by
  have size := UInt64.toNat_sub_of_le _ _ (UInt64.le_iff_toNat_le.mpr within)
  refine wp_loop (fun v j' _ => Along fd j v.batch.data j' ∧ Spending sp j j' v)
    (fun _ j' => j.req.bytes.toNat - j'.req.byteOffset.toNat) ?_ _ _ _ ⟨⟨rfl, le_refl _, within, [], ?_, ?_⟩, ?_⟩ ?_
  · rintro v j₁ l ⟨along, spends⟩
    refine wp_mono (getTurn_moves_on along spends) ?_
    rintro (e | v' | res) j₂ l' ended
    · exact ended.after l
    · obtain ⟨along', spends', moved⟩ := ended
      have high := along'.high
      exact ⟨⟨along', spends'⟩, by omega⟩
    · exact ended.after l
  · exact Nat.add_zero _
  · exact ⟨.nil, [], Sends.refl fd j.os, rfl⟩
  · exact ⟨Nat.add_zero _, fun _ => Nat.add_zero _⟩
  · rw [size]
    omega

end Turn

end Loop

def announcement (r : Request) : Bytes := if r.started then [] else formatOk r.bytes.toNat

/-- How a round of a GET ends, whatever its file holds and whatever comes of its calls. -/
structure GetServed (fd : Int) (sp : SliceParams) (j : Job) (v : Except Fault SliceResult) (j' : Job) (l : List Event) :
    Prop where
  req : ∃ offset deficit forfeited started, j'.req = { j.req with
    rounds := j.req.rounds + 1, byteOffset := offset, deficit := deficit, forfeitedBytes := forfeited, started := started }
  low : j.req.byteOffset.toNat ≤ j'.req.byteOffset.toNat
  high : j'.req.byteOffset.toNat ≤ j.req.bytes.toNat
  sent : ∃ head body, Sends fd (head ++ body) j.os j'.os ∧ head <+: announcement j.req ∧
    (j'.req.started = true → head = announcement j.req) ∧ (j'.req.started = false → body = []) ∧
    (j'.req.started = false → (∀ e, v = .error e → head = [])) ∧ (j.req.started = true → j'.req.started = true) ∧
    j.req.byteOffset.toNat + body.length ≤ j.req.bytes.toNat ∧
    Quotes j.os j.req.fileFd j.req.byteOffset.toNat body ∧
    (v = .ok .done ∨ v = .ok .preempted → j'.req.started = true ∧
      j.req.byteOffset.toNat + body.length = j'.req.byteOffset.toNat)
  fresh : j'.req.started = false → j'.req.byteOffset = j.req.byteOffset
  done : v = .ok .done → j'.req.byteOffset = j.req.bytes
  preempted : v = .ok .preempted → Preempts sp j.req j'.req
  stopped : ∀ e, v = .error e → e = .thrown ∧ .allocFailed ∈ l

section Round
variable {fd : Int} {sp : SliceParams}

theorem sendHeader_greets (j : Job) : wp (sendHeader fd) j fun v j' l => ∃ head, Sends fd head j.os j'.os ∧
    head <+: announcement j.req ∧ ((v = .ok true ∧ j'.req = { j.req with started := true } ∧ head = announcement j.req) ∨
      j.req.started = false ∧ j'.req = j.req ∧
        (v = .ok false ∨ v = .error .thrown ∧ head = [] ∧ .allocFailed ∈ l)) := by
  unfold sendHeader announcement
  rw [wp_request_bind]
  by_cases hs : j.req.started = true
  · rw [if_pos hs, if_pos hs, wp_pure]
    refine ⟨[], Sends.refl fd j.os, List.nil_prefix, .inl ⟨rfl, ?_, rfl⟩⟩
    rw [← hs]
  · have fresh : j.req.started = false := by simpa using hs
    rw [if_neg hs, if_neg hs]
    refine wp_seq (onOs_spec (alloc_quotes fd)) ?_ ?_
    · rintro ⟨⟩ ⟨req, os₁⟩ l₁ ⟨rfl, sends₁, -⟩
      refine wp_seq (onOs_spec (sendAll_quotes fd _)) ?_ (by simp)
      rintro ok ⟨req, os₂⟩ l₂ ⟨same, ok', out, hok, part, whole, sends₂⟩
      simp only at same sends₂
      subst same
      cases hok
      have sends := sends₁.trans sends₂
      rw [List.nil_append] at sends
      split
      · rw [wp_setRequest_bind, wp_pure]
        exact ⟨out, sends, part, .inl ⟨rfl, rfl, whole ‹_›⟩⟩
      · rw [wp_pure]
        exact ⟨out, sends, part, .inr ⟨fresh, rfl, .inl rfl⟩⟩
    · rintro e ⟨req, os₁⟩ l₁ ⟨rfl, sends₁, hv | ⟨hv, failed⟩⟩
      · cases hv
      · cases hv
        exact ⟨[], sends₁, List.nil_prefix, .inr ⟨fresh, rfl, .inr ⟨rfl, rfl, failed⟩⟩⟩

theorem serveGet_served {j : Job} (within : j.req.byteOffset.toNat ≤ j.req.bytes.toNat) :
    wp (serveGet fd sp) j fun v j' l => GetServed fd sp j v j' l := by
  unfold serveGet
  rw [wp_setRequest_bind]
  -- the header line goes out in part, or an allocation fails, and the round ends
  have silent : ∀ {v : Except Fault SliceResult} {j' : Job} {l : List Event} {head : Bytes}, Fallen v →
      j.req.started = false → Sends fd head j.os j'.os → head <+: announcement j.req →
      j'.req = { j.req with rounds := j.req.rounds + 1 } → (∀ e, v = .error e → head = []) →
      (∀ e, v = .error e → e = .thrown ∧ .allocFailed ∈ l) → GetServed fd sp j v j' l := by
    intro v j' l head fallen fresh sends part same hushed stopped
    have kept : j'.req.started = false := by
      rw [same]
      exact fresh
    refine ⟨⟨j.req.byteOffset, j.req.deficit, j.req.forfeitedBytes, j.req.started, same⟩, ?_, ?_, ⟨head, [], ?_, part,
      ?_, fun _ => rfl, fun _ => hushed, ?_, ?_, .nil, ?_⟩, ?_, fun done => absurd done fallen.1,
      fun done => absurd done fallen.2, stopped⟩
    · rw [same]
    · rw [same]
      exact within
    · rwa [List.append_nil]
    · rw [kept]
      simp
    · rw [fresh]
      simp
    · exact within
    · rintro (done | done)
      · exact absurd done fallen.1
      · exact absurd done fallen.2
    · rw [same]
      exact fun _ => rfl
  refine wp_seq (sendHeader_greets _) ?_ ?_
  · rintro ok ⟨req, os₁⟩ l₁ ⟨head, sends₁, part, ⟨hok, same, whole⟩ | ⟨fresh, same, hok⟩⟩
    · cases hok
      simp only at same sends₁ whole
      subst same
      simp only [if_true]
      rw [wp_request_bind]
      refine wp_mono (getLoop_ends within) ?_
      rintro v ⟨req, os₂⟩ l₂ ended
      obtain ⟨offset, deficit, forfeited, same⟩ := ended.req
      obtain ⟨data, sends₂, bound, quotes, moved⟩ := ended.body
      simp only at same sends₂ bound quotes moved
      have high := ended.high
      have low := ended.low
      have done := ended.done
      have preempted := ended.preempted
      subst same
      refine ⟨⟨offset, deficit, forfeited, true, rfl⟩, low, high,
        ⟨head, data, sends₁.trans sends₂, part, fun _ => whole, ?_, ?_, fun _ => rfl, bound, ?_, ?_⟩, ?_, done, ?_, ?_⟩
      · intro unstarted
        cases unstarted
      · intro unstarted
        cases unstarted
      · exact quotes.congr sends₁.files.symm
      · exact fun ended => ⟨rfl, moved ended⟩
      · intro unstarted
        cases unstarted
      · exact fun goes_on => ⟨(preempted goes_on).policy, (preempted goes_on).unfinished, (preempted goes_on).rr,
          (preempted goes_on).drr⟩
      · exact (ended.after l₁).stopped
    · rcases hok with hok | ⟨hok, -⟩
      · cases hok
        simp only [Bool.false_eq_true, if_false, wp_pure]
        exact silent fallen_failed fresh sends₁ part same (by simp) (by simp)
      · cases hok
  · rintro e ⟨req, os₁⟩ l₁ ⟨head, sends₁, part, ⟨hok, -⟩ | ⟨fresh, same, hok⟩⟩
    · cases hok
    · rcases hok with hok | ⟨hok, none, failed⟩
      · cases hok
      · cases hok
        refine silent (fallen_error _) fresh sends₁ part same (fun _ _ => none) fun e he => ?_
        cases he
        exact ⟨rfl, failed⟩

end Round

end LinkScheduling
