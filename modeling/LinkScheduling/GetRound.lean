import LinkScheduling.Transfer
import LinkScheduling.Packing

/-! One round of `serve_get`, when no call fails. The lines of the file that a round sends
are given by the packing of their lengths (`roundOf`); `GetRound` says what the round makes
of the request, the socket and the log. -/

namespace LinkScheduling
open Effect Lines

/-- The first line is longer than the quantum, so the A14 escape applies. -/
def longFirst (sp : SliceParams) : List Bytes → Bool
  | [] => false
  | line :: _ => sp.policy = .rr && sp.quantum.toNat < line.length

def roundOf (sp : SliceParams) (deficit : UInt64) (ls : List Bytes) : List Bytes × List Bytes :=
  match sp.policy with
  | .fcfs | .sjf => (ls, [])
  | .rr => Packing.round List.length sp.quantum.toNat ls
  | .drr => Packing.fit List.length (allowance sp deficit).toNat ls

theorem roundOf_append (sp : SliceParams) (deficit : UInt64) (ls : List Bytes) :
    (roundOf sp deficit ls).1 ++ (roundOf sp deficit ls).2 = ls := by
  unfold roundOf
  cases sp.policy with
  | fcfs => simp
  | sjf => simp
  | rr => exact Packing.round_append _ _ _
  | drr => exact Packing.fit_append _ _ _

theorem allowance_rr {sp : SliceParams} (h : sp.policy = .rr) (deficit : UInt64) :
    allowance sp deficit = sp.quantum := by
  have top := sp.quantum.toNat_lt
  simp [allowance, bounded, h, UInt64.lt_iff_toNat_lt]

theorem allowance_drr {sp : SliceParams} (h : sp.policy = .drr) (deficit : UInt64) :
    (allowance sp deficit).toNat = min (deficit.toNat + sp.quantum.toNat) (2 ^ 64 - 1) := by
  have top := sp.quantum.toNat_lt
  have top' := deficit.toNat_lt
  have unbounded : kUnbounded.toNat = 2 ^ 64 - 1 := rfl
  have left : (kUnbounded - sp.quantum).toNat = 2 ^ 64 - 1 - sp.quantum.toNat := by
    rw [UInt64.toNat_sub_of_le _ _ (UInt64.le_iff_toNat_le.mpr (by omega)), unbounded]
  simp only [allowance, bounded, h, if_true]
  split
  · rename_i hd
    rw [gt_iff_lt, UInt64.lt_iff_toNat_lt, left] at hd
    omega
  · rename_i hd
    rw [gt_iff_lt, UInt64.lt_iff_toNat_lt, left] at hd
    rw [UInt64.toNat_add]
    omega

theorem total_length (ls : List Bytes) : Packing.total List.length ls = ls.flatten.length :=
  List.length_flatten.symm

theorem longFirst_append {sp : SliceParams} {line : Bytes} (sent rest : List Bytes) :
    longFirst sp (line :: sent ++ rest) = longFirst sp (line :: sent) := rfl

theorem roundOf_long {sp : SliceParams} (deficit : UInt64) {line : Bytes} {rest : List Bytes}
    (h : longFirst sp (line :: rest) = true) : roundOf sp deficit (line :: rest) = ([line], rest) := by
  simp only [longFirst, Bool.and_eq_true, decide_eq_true_eq] at h
  simp only [roundOf, h.1, Packing.round, if_pos h.2]

/-- Without the escape a round is over when the lines are, or when the next one would exceed
the allowance. -/
theorem roundOf_eq {sp : SliceParams} {deficit : UInt64} {sent rest : List Bytes}
    (hlong : longFirst sp (sent ++ rest) = false)
    (fits : bounded sp.policy = true → sent.flatten.length ≤ (allowance sp deficit).toNat)
    (beyond : ∀ line ls, rest = line :: ls → bounded sp.policy = true ∧
      (allowance sp deficit).toNat < sent.flatten.length + line.length) :
    roundOf sp deficit (sent ++ rest) = (sent, rest) := by
  have fit : bounded sp.policy = true →
      Packing.fit List.length (allowance sp deficit).toNat (sent ++ rest) = (sent, rest) := by
    intro hb
    refine Packing.fit_unique _ _ _ _ (by rw [total_length]; exact fits hb) ?_
    intro line ls h
    rw [total_length]
    exact (beyond line ls h).2
  have whole : bounded sp.policy = false → rest = [] := by
    intro hb
    cases rest with
    | nil => rfl
    | cons line ls => simp [hb] at beyond
  unfold roundOf
  cases hp : sp.policy with
  | fcfs => simp [whole (by simp [bounded, hp])]
  | sjf => simp [whole (by simp [bounded, hp])]
  | drr => exact fit (by simp [bounded, hp])
  | rr =>
    have hfit := fit (by simp [bounded, hp])
    rw [allowance_rr hp] at hfit
    cases hls : sent ++ rest with
    | nil => simp_all
    | cons line ls =>
      rw [hls] at hlong hfit
      have short : ¬ sp.quantum.toNat < line.length := by simpa [longFirst, hp] using hlong
      simp only [Packing.round, if_neg short, hfit]

/-- What putting one line into the batch hands to the socket, under `--p`. -/
inductive Emits (p : Int) : Batch → Bytes → Batch → List Bytes → Prop
  | stream {b : Batch} {line : Bytes} {pieces : List Bytes} : 65536 < line.length →
      pieces.flatten = line → (∀ x ∈ pieces, x.length ≤ 65536) →
      Emits p b line {} ((if b.data = [] then [] else [b.data]) ++ pieces)
  | full {b : Batch} {line : Bytes} : line.length ≤ 65536 → max 1 p ≤ (b.lines : Int) + 1 →
      Emits p b line {} [b.data ++ line]
  | hold {b : Batch} {line : Bytes} : line.length ≤ 65536 → (b.lines : Int) + 1 < max 1 p →
      Emits p b line { data := b.data ++ line, lines := b.lines + 1 } []

/-- The buffers handed over while some lines pass through an empty batch. -/
inductive Grouped (p : Int) : List Bytes → Batch → List Bytes → Prop
  | nil : Grouped p [] {} []
  | snoc {sent : List Bytes} {b b' : Batch} {line : Bytes} {hs hs' : List Bytes} :
      Grouped p sent b hs → Emits p b line b' hs' → Grouped p (sent ++ [line]) b' (hs ++ hs')

theorem Emits.bytes {p : Int} {b b' : Batch} {line : Bytes} {hs : List Bytes}
    (h : Emits p b line b' hs) : hs.flatten ++ b'.data = b.data ++ line := by
  cases h with
  | stream _ hpieces _ => split <;> simp_all
  | full => simp
  | hold => simp

theorem Grouped.bytes {p : Int} {sent : List Bytes} {b : Batch} {hs : List Bytes}
    (h : Grouped p sent b hs) : hs.flatten ++ b.data = sent.flatten := by
  induction h with
  | nil => rfl
  | snoc _ step ih =>
    rw [List.flatten_append, List.append_assoc, step.bytes, ← List.append_assoc, ih]
    simp

theorem Grouped.of_nil {p : Int} {b : Batch} {hs : List Bytes} (h : Grouped p [] b hs) :
    b = {} ∧ hs = [] := by
  generalize hsent : ([] : List Bytes) = sent at h
  cases h with
  | nil => exact ⟨rfl, rfl⟩
  | snoc => simp at hsent

/-- The buffers of a whole round: an A14 line in pieces, or the groups and the last flush. -/
inductive Writes (sp : SliceParams) : List Bytes → List Bytes → Prop
  | long {line : Bytes} {pieces : List Bytes} : longFirst sp [line] = true →
      pieces.flatten = line → (∀ x ∈ pieces, x.length ≤ 65536) → Writes sp [line] pieces
  | batched {sent : List Bytes} {b : Batch} {hs : List Bytes} : longFirst sp sent = false →
      Grouped sp.pLines sent b hs → Writes sp sent (hs ++ if b.data = [] then [] else [b.data])

theorem Writes.bytes {sp : SliceParams} {sent hs : List Bytes} (h : Writes sp sent hs) :
    hs.flatten = sent.flatten := by
  cases h with
  | long _ hpieces _ => simp [hpieces]
  | batched _ grouped =>
    rw [← grouped.bytes, List.flatten_append]
    split <;> simp_all

/-- Between the worlds `a` and `b` the buffers `hs` went out on `fd`, and the log `l` shows
them along with the A14 lines `as`. -/
structure Puts (fd : Int) (hs : List Bytes) (as : List (Nat × Bytes × UInt64 × UInt64))
    (a b : Os) (l : List Event) : Prop where
  sends : Sends fd hs.flatten a b
  shows : Shows l hs as

theorem Puts.refl (fd : Int) (a : Os) : Puts fd [] [] a a [] := ⟨Sends.refl fd a, Shows.nil⟩

theorem Puts.trans {fd : Int} {hs hs' : List Bytes} {as as' : List (Nat × Bytes × UInt64 × UInt64)}
    {a b c : Os} {l l' : List Event} (h : Puts fd hs as a b l) (h' : Puts fd hs' as' b c l') :
    Puts fd (hs ++ hs') (as ++ as') a c (l ++ l') :=
  ⟨by simpa using h.sends.trans h'.sends, h.shows.append h'.shows⟩

theorem Puts.then_quiet {fd : Int} {hs : List Bytes} {as : List (Nat × Bytes × UInt64 × UInt64)}
    {a b c : Os} {l l' : List Event} (h : Puts fd hs as a b l) (h' : Puts fd [] [] b c l') :
    Puts fd hs as a c (l ++ l') := by simpa using h.trans h'

section Steps
variable {fd : Int} {sp : SliceParams} {j : Job} {c : Bytes}

theorem onOs_succeeds {α : Type} {x : Sys α} {P : α → Os → List Event → Prop}
    (h : Succeeds x j.os P) :
    Succeeds (onOs x) j fun a j' l => j'.req = j.req ∧ P a j'.os l :=
  .zoom (h.mono fun _ _ _ hp => ⟨rfl, hp⟩)

theorem request_bind {α : Type} {f : Request → Slice α} {Q : α → Job → List Event → Prop}
    (h : Succeeds (f j.req) j Q) : Succeeds (request >>= f) j Q := h

theorem setRequest_bind {α : Type} {f : Request → Request} {g : Unit → Slice α}
    {Q : α → Job → List Event → Prop} (h : Succeeds (g ()) { j with req := f j.req } Q) :
    Succeeds (setRequest f >>= g) j Q := h

theorem alloc_puts (fd : Int) (os : Os) :
    Succeeds alloc os fun _ os' l => Puts fd [] [] os os' l :=
  (alloc_succeeds fd).mono fun _ _ _ h => ⟨by simpa using h.1, h.2⟩

theorem sendAll_puts (fd : Int) (data : Bytes) (os : Os) :
    Succeeds (sendAll fd data) os fun ok os' l => ok = true ∧ Puts fd [data] [] os os' l :=
  (sendAll_succeeds fd data os).mono fun _ _ _ h => ⟨h.1, by simpa using h.2.1, h.2.2⟩

def Batch.rest (b : Batch) : List Bytes := if b.data = [] then [] else [b.data]

theorem Batch.rest_flatten (b : Batch) : b.rest.flatten = b.data := by
  unfold Batch.rest
  split <;> simp_all

theorem flush_puts (b : Batch) (fd : Int) (os : Os) :
    Succeeds (b.flush fd) os fun ok os' l => ok = true ∧ Puts fd b.rest [] os os' l :=
  (flush_succeeds b fd os).mono fun _ _ _ h =>
    ⟨h.1, by rw [Batch.rest_flatten]; exact h.2.1, h.2.2⟩

theorem streamRange_puts {offset len : UInt64} {file : Int} {os : Os}
    (hc : os.files.contentOf file = some c) (hoff : c.length ≤ offLimit)
    (hrange : offset.toNat + len.toNat ≤ c.length) :
    Succeeds (streamRange file fd offset len) os fun ok os' l => ok = true ∧
      ∃ pieces, pieces.flatten = (c.drop offset.toNat).take len.toNat ∧
        (∀ x ∈ pieces, x.length ≤ 65536) ∧ Puts fd pieces [] os os' l := by
  refine (streamRange_succeeds fd hc hoff hrange).mono ?_
  rintro ok os' l ⟨rfl, hs, pieces, hflat, hsmall, hl⟩
  exact ⟨rfl, pieces, hflat, hsmall, by rwa [hflat], hl⟩

theorem emitLine_succeeds (b : Batch) {len : UInt64}
    (hc : j.os.files.contentOf j.req.fileFd = some c) (hoff : c.length ≤ offLimit)
    (hrange : j.req.byteOffset.toNat + len.toNat ≤ c.length) (hlen : 0 < len.toNat) :
    Succeeds (emitLine fd sp b len) j fun r j' l => ∃ b' hs, r = some b' ∧ j'.req = j.req ∧
      Emits sp.pLines b ((c.drop j.req.byteOffset.toNat).take len.toNat) b' hs ∧
        Puts fd hs [] j.os j'.os l := by
  set line := (c.drop j.req.byteOffset.toNat).take len.toNat with hline
  have length : line.length = len.toNat := by
    rw [hline, List.length_take, List.length_drop]
    omega
  have chunk : kChunk.toNat = 65536 := rfl
  refine request_bind ?_
  split
  · rename_i hlong
    rw [gt_iff_lt, UInt64.lt_iff_toNat_lt, chunk] at hlong
    refine .seq (onOs_succeeds (flush_puts b fd j.os)) ?_
    rintro ok j₁ l₁ ⟨hreq, rfl, hput⟩
    rw [if_pos rfl]
    refine .seq (onOs_succeeds (streamRange_puts (hput.sends.contentOf.trans hc) hoff hrange)) ?_
    rintro ok j₂ l₂ ⟨hreq', rfl, pieces, hflat, hsmall, hput'⟩
    rw [if_pos rfl]
    refine .pure ⟨{}, _, rfl, hreq'.trans hreq, .stream (by omega) hflat hsmall, ?_⟩
    simpa [Batch.rest] using hput.trans hput'
  · rename_i hshort
    rw [gt_iff_lt, UInt64.lt_iff_toNat_lt, chunk] at hshort
    refine .seq (onOs_succeeds (appendRange_succeeds fd b.data hc hoff hrange)) ?_
    rintro ok j₁ l₁ ⟨hreq, rfl, hs, hl⟩
    have quiet : Puts fd [] [] j.os j₁.os l₁ := ⟨by simpa using hs, hl⟩
    simp only [if_true]
    rw [SliceParams.linesPerWrite]
    split
    · rename_i hfull
      refine .seq (onOs_succeeds (flush_puts _ fd j₁.os)) ?_
      rintro ok j₂ l₂ ⟨hreq', rfl, hput⟩
      rw [if_pos rfl]
      refine .pure ⟨{}, [b.data ++ line], rfl, hreq'.trans hreq,
        .full (by omega) (by push_cast at hfull; omega), ?_⟩
      have filled : b.data ++ line ≠ [] := by
        rw [← List.length_pos_iff, List.length_append]
        omega
      rw [Batch.rest, if_neg filled] at hput
      simpa using quiet.trans hput
    · rename_i hroom
      refine .pure ⟨_, [], rfl, hreq, .hold (by omega) (by push_cast at hroom; omega), ?_⟩
      simpa using quiet

theorem sendHeader_succeeds : Succeeds (sendHeader fd) j fun ok j' l => ok = true ∧
    j'.req = { j.req with started := true } ∧
      Puts fd (if j.req.started then [] else [formatOk j.req.bytes.toNat]) [] j.os j'.os l := by
  refine request_bind ?_
  cases hstarted : j.req.started with
  | true => exact .pure ⟨rfl, by rw [← hstarted], Puts.refl fd j.os⟩
  | false =>
    refine .seq (onOs_succeeds (alloc_puts fd j.os)) ?_
    rintro ⟨⟩ j₁ l₁ ⟨hreq, hput⟩
    refine .seq (onOs_succeeds (sendAll_puts fd (formatOk j.req.bytes.toNat) j₁.os)) ?_
    rintro ok j₂ l₂ ⟨hreq', rfl, hput'⟩
    exact setRequest_bind (.pure ⟨rfl, by rw [hreq', hreq], by simpa using hput.trans hput'⟩)

end Steps

theorem line_length_pos {c line : Bytes} (h : line ∈ lines newline c) : 0 < line.length :=
  List.length_pos_iff.mpr (lines_ne_nil h)

/-- `before` has been sent of the lines of `c`, and `ls` is still to send. -/
structure Serving (c : Bytes) (before ls : List Bytes) (j : Job) : Prop where
  content : j.os.files.contentOf j.req.fileFd = some c
  size : j.req.bytes.toNat = c.length
  small : c.length < offLimit
  cut : lines newline c = before ++ ls
  offset : j.req.byteOffset.toNat = before.flatten.length

namespace Serving
variable {c line : Bytes} {before ls rest : List Bytes} {j j' : Job}

theorem whole (h : Serving c before ls j) : c = before.flatten ++ ls.flatten := by
  rw [← List.flatten_append, ← h.cut, lines_flatten]

theorem length (h : Serving c before ls j) : c.length = before.flatten.length + ls.flatten.length := by
  rw [← List.length_append, ← h.whole]

theorem drop (h : Serving c before ls j) : c.drop j.req.byteOffset.toNat = ls.flatten := by
  rw [h.offset, h.whole, List.drop_left]

theorem line_pos (h : Serving c before (line :: rest) j) : 0 < line.length := by
  exact line_length_pos (c := c) (by simp [h.cut])

theorem unfinished (h : Serving c before ls j) : j.req.byteOffset < j.req.bytes ↔ ls ≠ [] := by
  rw [UInt64.lt_iff_toNat_lt, h.offset, h.size, h.length]
  cases ls with
  | nil => simp
  | cons line rest =>
    have := h.line_pos
    simp only [List.flatten_cons, List.length_append, ne_eq, reduceCtorEq, not_false_iff, iff_true]
    omega

theorem line_region (h : Serving c before (line :: rest) j) :
    (c.drop j.req.byteOffset.toNat).take line.length = line := by
  rw [h.drop, List.flatten_cons, List.take_left]

theorem lineLength (h : Serving c before (line :: rest) j) (fd : Int) :
    Succeeds (lineLengthAt j.req.fileFd j.req.byteOffset j.req.bytes) j.os fun len os' l =>
      len = UInt64.ofNat line.length ∧ Puts fd [] [] j.os os' l := by
  have small := h.small
  have total := h.length
  simp only [List.flatten_cons, List.length_append] at total
  refine (lineLengthAt_succeeds fd h.content (by rw [h.size]) (by omega)
    (h.unfinished.mpr (by simp))).mono ?_
  rintro len os' l ⟨hlen, hs, hl⟩
  rw [h.size, List.take_length, h.drop] at hlen
  have head := length_head (lines_suffix h.cut)
  rw [headLength, ← head] at hlen
  have bound : offLimit = 2 ^ 63 := rfl
  refine ⟨UInt64.toNat_inj.mp ?_, by simpa using hs, hl⟩
  rw [hlen, UInt64.toNat_ofNat']
  omega

theorem same (h : Serving c before ls j) {data : Bytes} {fd : Int} (hs : Sends fd data j.os j'.os)
    (hfile : j'.req.fileFd = j.req.fileFd) (hbytes : j'.req.bytes = j.req.bytes)
    (hoffset : j'.req.byteOffset = j.req.byteOffset) : Serving c before ls j' where
  content := by rw [hfile, hs.contentOf, h.content]
  size := by rw [hbytes, h.size]
  small := h.small
  cut := h.cut
  offset := by rw [hoffset, h.offset]

theorem move (sent : List Bytes) (h : Serving c before (sent ++ rest) j) {data : Bytes} {fd : Int}
    (hs : Sends fd data j.os j'.os) (hfile : j'.req.fileFd = j.req.fileFd)
    (hbytes : j'.req.bytes = j.req.bytes)
    (hoffset : j'.req.byteOffset = j.req.byteOffset + UInt64.ofNat sent.flatten.length) :
    Serving c (before ++ sent) rest j' where
  content := by rw [hfile, hs.contentOf, h.content]
  size := by rw [hbytes, h.size]
  small := h.small
  cut := by rw [h.cut, List.append_assoc]
  offset := by
    have small := h.small
    have bound : offLimit = 2 ^ 63 := rfl
    have total := h.length
    have start := h.offset
    rw [List.flatten_append, List.length_append] at total ⊢
    rw [hoffset]
    simp only [UInt64.toNat_add, UInt64.toNat_ofNat']
    omega

end Serving

/-- What the loop of a round that sends `sent` and leaves `rest` makes of the request. -/
def served (sp : SliceParams) (r : Request) (sent rest : List Bytes) : Request :=
  { r with
    byteOffset := r.byteOffset + UInt64.ofNat sent.flatten.length
    forfeitedBytes :=
      if sp.policy = .rr ∧ rest ≠ [] ∧ longFirst sp sent = false then
        r.forfeitedBytes + (sp.quantum - UInt64.ofNat sent.flatten.length)
      else r.forfeitedBytes
    deficit :=
      if longFirst sp sent then r.deficit
      else if rest = [] then 0
      else if sp.policy = .rr then r.deficit
      else allowance sp r.deficit - UInt64.ofNat sent.flatten.length }

def a14Lines (sp : SliceParams) (r : Request) (sent : List Bytes) :
    List (Nat × Bytes × UInt64 × UInt64) :=
  if longFirst sp sent then [(r.id, r.filename, UInt64.ofNat sent.flatten.length, sp.quantum)] else []

structure GetLoop (fd : Int) (sp : SliceParams) (c : Bytes) (before ls : List Bytes) (j : Job)
    (res : SliceResult) (j' : Job) (l : List Event) : Prop where
  result : res = if (roundOf sp j.req.deficit ls).2 = [] then .done else .preempted
  req : j'.req = served sp j.req (roundOf sp j.req.deficit ls).1 (roundOf sp j.req.deficit ls).2
  serving : Serving c (before ++ (roundOf sp j.req.deficit ls).1) (roundOf sp j.req.deficit ls).2 j'
  puts : ∃ hs, Writes sp (roundOf sp j.req.deficit ls).1 hs ∧
    Puts fd hs (a14Lines sp j.req (roundOf sp j.req.deficit ls).1) j.os j'.os l

/-- In the course of the loop `sent` has gone through the batch, and `rest` remains. -/
structure Sending (fd : Int) (sp : SliceParams) (c : Bytes) (before sent rest : List Bytes)
    (hs : List Bytes) (j : Job) (v : GetLocals) (j' : Job) (l : List Event) : Prop where
  req : j'.req = { j.req with byteOffset := j.req.byteOffset + UInt64.ofNat sent.flatten.length }
  serving : Serving c (before ++ sent) rest j'
  grouped : Grouped sp.pLines sent v.batch hs
  puts : Puts fd hs [] j.os j'.os l
  sentThisRound : v.sentThisRound.toNat = sent.flatten.length
  left : bounded sp.policy = true →
    v.left.toNat + sent.flatten.length = (allowance sp j.req.deficit).toNat
  short : longFirst sp sent = false

section Loop
variable {fd : Int} {sp : SliceParams} {c : Bytes} {before sent rest hs : List Bytes} {j j' : Job}
  {v : GetLocals} {l : List Event}

theorem logA14Fire_succeeds (fd : Int) (id : Nat) (name : Bytes) (len quantum : UInt64) (os : Os) :
    Succeeds (logA14Fire id name len quantum) os fun _ os' l =>
      Puts fd [] [(id, name, len, quantum)] os os' l := by
  refine .seq (alloc_puts fd os) ?_
  rintro ⟨⟩ os₁ l₁ h
  refine .emit ?_
  have fired : Puts fd [] [(id, name, len, quantum)] os₁ os₁ [.a14 id name len quantum] :=
    ⟨by simpa using Sends.refl fd os₁, rfl, rfl⟩
  simpa using h.trans fired

theorem Sending.finish (h : Sending fd sp c before sent [] hs j v j' l) :
    Succeeds (finishGet fd v) j' fun res j'' l' =>
      GetLoop fd sp c before sent j res j'' (l ++ l') := by
  have round : roundOf sp j.req.deficit sent = (sent, []) := by
    have whole : roundOf sp j.req.deficit (sent ++ []) = (sent, []) :=
      roundOf_eq (by simpa using h.short) (fun hb => by have := h.left hb; omega) (by simp)
    simpa using whole
  refine .seq (onOs_succeeds (flush_puts v.batch fd j'.os)) ?_
  rintro ok j₁ l₁ ⟨hreq, rfl, hput⟩
  rw [if_pos rfl]
  refine setRequest_bind (.pure ?_)
  have same : Serving c (before ++ sent) [] { j₁ with req := { j₁.req with deficit := 0 } } :=
    h.serving.same hput.sends (by rw [hreq]) (by rw [hreq]) (by rw [hreq])
  refine ⟨by simp [round], ?_, by rwa [round], ?_⟩
  · simp [round, served, h.short, hreq, h.req]
  · refine ⟨hs ++ v.batch.rest, by rw [round]; exact .batched h.short h.grouped, ?_⟩
    simpa [round, a14Lines, h.short] using h.puts.trans hput

theorem Sending.endRound {line : Bytes} (h : Sending fd sp c before sent (line :: rest) hs j v j' l)
    (hb : bounded sp.policy = true) (hline : v.left.toNat < line.length)
    (hlong : longFirst sp (sent ++ line :: rest) = false) :
    Succeeds (endRound fd sp v) j' fun res j'' l' =>
      GetLoop fd sp c before (sent ++ line :: rest) j res j'' (l ++ l') := by
  have left := h.left hb
  have round : roundOf sp j.req.deficit (sent ++ line :: rest) = (sent, line :: rest) := by
    refine roundOf_eq hlong (fun _ => by omega) ?_
    intro line' ls hls
    cases hls
    exact ⟨hb, by omega⟩
  have remains : v.left = allowance sp j.req.deficit - UInt64.ofNat sent.flatten.length := by
    have top := (allowance sp j.req.deficit).toNat_lt
    have length : (UInt64.ofNat sent.flatten.length).toNat = sent.flatten.length := by
      rw [UInt64.toNat_ofNat']
      omega
    apply UInt64.toNat_inj.mp
    rw [UInt64.toNat_sub_of_le _ _ (UInt64.le_iff_toNat_le.mpr (by omega))]
    omega
  refine .seq (onOs_succeeds (flush_puts v.batch fd j'.os)) ?_
  rintro ok j₁ l₁ ⟨hreq, rfl, hput⟩
  rw [if_pos rfl]
  have writes : Writes sp sent (hs ++ v.batch.rest) := .batched h.short h.grouped
  split
  · rename_i hrr
    refine setRequest_bind (.pure ?_)
    rw [allowance_rr hrr] at remains
    refine ⟨by simp [round], ?_, ?_, ?_⟩
    · simp [round, served, h.short, hreq, h.req, hrr, remains]
    · rw [round]
      exact h.serving.same hput.sends (by rw [hreq]) (by rw [hreq]) (by rw [hreq])
    · rw [round]
      exact ⟨_, writes, by simpa [a14Lines, h.short] using h.puts.trans hput⟩
  · rename_i hrr
    refine setRequest_bind (.pure ?_)
    refine ⟨by simp [round], ?_, ?_, ?_⟩
    · simp [round, served, h.short, hreq, h.req, hrr, remains]
    · rw [round]
      exact h.serving.same hput.sends (by rw [hreq]) (by rw [hreq]) (by rw [hreq])
    · rw [round]
      exact ⟨_, writes, by simpa [a14Lines, h.short] using h.puts.trans hput⟩

theorem Sending.sendLongLine {line : Bytes} (h : Sending fd sp c before [] (line :: rest) hs j v j' l)
    (hlong : longFirst sp (line :: rest) = true) :
    Succeeds (sendLongLine fd sp v (UInt64.ofNat line.length)) j' fun res j'' l' =>
      GetLoop fd sp c before (line :: rest) j res j'' (l ++ l') := by
  have hs := h.serving
  simp only [List.append_nil] at hs
  have small := hs.small
  have bound : offLimit = 2 ^ 63 := rfl
  have total := hs.length
  have offset := hs.offset
  simp only [List.flatten_cons, List.length_append] at total
  have length : (UInt64.ofNat line.length).toNat = line.length := by
    rw [UInt64.toNat_ofNat']
    omega
  have round := roundOf_long j.req.deficit hlong
  have alone : longFirst sp [line] = true := hlong
  obtain ⟨hbatch, rfl⟩ := h.grouped.of_nil
  refine request_bind ?_
  rw [hbatch]
  refine .seq (onOs_succeeds (flush_puts {} fd j'.os)) ?_
  rintro ok j₁ l₁ ⟨hreq₁, rfl, hput₁⟩
  rw [if_pos rfl]
  refine .seq (onOs_succeeds (streamRange_puts (hput₁.sends.contentOf.trans hs.content)
    (by omega) (by omega))) ?_
  rintro ok j₂ l₂ ⟨hreq₂, rfl, pieces, hflat, hsmall, hput₂⟩
  rw [if_pos rfl]
  refine setRequest_bind ?_
  refine .seq (onOs_succeeds (logA14Fire_succeeds fd _ _ _ _ j₂.os)) ?_
  rintro ⟨⟩ j₃ l₃ ⟨hreq₃, hput₃⟩
  refine request_bind (.pure ?_)
  rw [length, hs.line_region] at hflat
  have put := ((h.puts.trans hput₁).trans hput₂).trans hput₃
  have moved : Serving c (before ++ [line]) rest j₃ := Serving.move [line] (by simpa using hs)
    ((hput₁.sends.trans hput₂.sends).trans hput₃.sends) (by rw [hreq₃, hreq₂, hreq₁])
    (by rw [hreq₃, hreq₂, hreq₁]) (by rw [hreq₃, hreq₂, hreq₁]; simp)
  refine ⟨?_, ?_, by rwa [round], ?_⟩
  · have further := moved.unfinished
    rw [round]
    by_cases hrest : rest = []
    · have : ¬ j₃.req.byteOffset < j₃.req.bytes := fun hlt => further.mp hlt hrest
      rw [if_pos hrest, if_pos (by simpa using this)]
    · have : j₃.req.byteOffset < j₃.req.bytes := further.mpr hrest
      rw [if_neg hrest, if_neg (by simpa using this)]
  · simp [round, served, alone, hreq₃, hreq₂, hreq₁, h.req]
  · rw [round]
    refine ⟨pieces, .long alone hflat hsmall, ?_⟩
    simpa [a14Lines, alone, hreq₂, hreq₁, h.req, Batch.rest] using put

theorem Sending.sendLine {line : Bytes} (h : Sending fd sp c before sent (line :: rest) hs j v j' l)
    (fits : bounded sp.policy = true → line.length ≤ v.left.toNat)
    (hshort : longFirst sp (sent ++ [line]) = false) :
    Succeeds (sendLine fd sp v (UInt64.ofNat line.length)) j' fun r j'' l' =>
      ∃ v' hs', r = .inl v' ∧ Sending fd sp c before (sent ++ [line]) rest hs' j v' j'' (l ++ l') := by
  have serving := h.serving
  have small := serving.small
  have bound : offLimit = 2 ^ 63 := rfl
  have total := serving.length
  have offset := serving.offset
  have spent := h.sentThisRound
  simp only [List.flatten_cons, List.flatten_append, List.length_append] at total offset
  have length : (UInt64.ofNat line.length).toNat = line.length := by
    rw [UInt64.toNat_ofNat']
    omega
  have grown : (sent ++ [line]).flatten.length = sent.flatten.length + line.length := by
    simp only [List.flatten_append, List.flatten_cons, List.flatten_nil, List.append_nil,
      List.length_append]
  have more : UInt64.ofNat (sent ++ [line]).flatten.length =
      UInt64.ofNat sent.flatten.length + UInt64.ofNat line.length := by
    rw [grown, UInt64.ofNat_add]
  refine .seq (emitLine_succeeds v.batch serving.content (by omega) (by omega)
    (by rw [length]; exact serving.line_pos)) ?_
  rintro r j₁ l₁ ⟨b, hs₁, rfl, hreq, emits, hput⟩
  rw [length, serving.line_region] at emits
  refine setRequest_bind (.pure ⟨_, hs ++ hs₁, rfl, ?_⟩)
  refine ⟨?_, ?_, h.grouped.snoc emits, by simpa using h.puts.trans hput, ?_, ?_, hshort⟩
  · rw [hreq, h.req, more]
    simp [UInt64.add_assoc]
  · rw [← List.append_assoc]
    refine Serving.move [line] (by simpa using serving) hput.sends (by rw [hreq])
      (by rw [hreq]) (by rw [hreq]; simp)
  · simp only [UInt64.toNat_add, length, spent, grown]
    omega
  · intro hb
    have left := h.left hb
    have := fits hb
    rw [if_pos hb, UInt64.toNat_sub_of_le _ _ (UInt64.le_iff_toNat_le.mpr (by omega)), length,
      grown]
    omega

theorem getTurn_succeeds {ls : List Bytes} (h : Sending fd sp c before sent rest hs j v j' l)
    (hls : ls = sent ++ rest) : Succeeds (getTurn fd sp v) j' fun r j'' l' =>
      match r with
      | .inl v' => ∃ sent' rest' hs', ls = sent' ++ rest' ∧
        j'.req.byteOffset.toNat < j''.req.byteOffset.toNat ∧
          Sending fd sp c before sent' rest' hs' j v' j'' (l ++ l')
      | .inr res => GetLoop fd sp c before ls j res j'' (l ++ l') := by
  refine request_bind ?_
  cases rest with
  | nil =>
    rw [if_neg (by simp [h.serving.unfinished])]
    rw [List.append_nil] at hls
    subst hls
    exact .map h.finish
  | cons line rest =>
    have serving := h.serving
    have small := serving.small
    have bound : offLimit = 2 ^ 63 := rfl
    have total := serving.length
    simp only [List.flatten_cons, List.flatten_append, List.length_append] at total
    have length : (UInt64.ofNat line.length).toNat = line.length := by
      rw [UInt64.toNat_ofNat']
      omega
    have pos := serving.line_pos
    rw [if_pos (serving.unfinished.mpr (by simp))]
    refine .seq (onOs_succeeds (serving.lineLength fd)) ?_
    rintro len j₁ l₁ ⟨hreq, rfl, hput⟩
    have h₁ : Sending fd sp c before sent (line :: rest) hs j v j₁ (l ++ l₁) := by
      refine ⟨hreq.trans h.req, ?_, h.grouped, h.puts.then_quiet hput, h.sentThisRound, h.left, h.short⟩
      exact serving.same hput.sends (by rw [hreq]) (by rw [hreq]) (by rw [hreq])
    have nonzero : ¬ UInt64.ofNat line.length = 0 := by
      intro e
      rw [e] at length
      simp at length
      omega
    rw [if_neg nonzero]
    split
    · rename_i hlong
      obtain ⟨hrr, hzero, hlen⟩ := hlong
      rw [gt_iff_lt, UInt64.lt_iff_toNat_lt, length] at hlen
      have nothing := h.sentThisRound
      rw [hzero] at nothing
      have hsent : sent = [] := by
        cases sent with
        | nil => rfl
        | cons first _ =>
          have pos : 0 < first.length := line_length_pos (c := c) (by simp [serving.cut])
          simp only [List.flatten_cons, List.length_append, UInt64.toNat_zero] at nothing
          omega
      subst hsent
      rw [List.nil_append] at hls
      subst hls
      exact .map ((h₁.sendLongLine (by simp [longFirst, hrr, hlen])).mono fun _ _ _ hres => by
        rwa [← List.append_assoc])
    · rename_i hlong
      have hshort : longFirst sp (sent ++ [line]) = false := by
        cases sent with
        | cons first _ => exact h.short
        | nil =>
          rw [← Bool.not_eq_true]
          intro e
          simp only [longFirst, List.nil_append, Bool.and_eq_true, decide_eq_true_eq] at e
          refine hlong ⟨e.1, ?_, ?_⟩
          · exact UInt64.toNat_inj.mp h.sentThisRound
          · rw [gt_iff_lt, UInt64.lt_iff_toNat_lt, length]
            exact e.2
      split
      · rename_i hover
        obtain ⟨hb, hover⟩ := hover
        rw [gt_iff_lt, UInt64.lt_iff_toNat_lt, length] at hover
        subst hls
        refine .map ((h₁.endRound hb hover ?_).mono fun _ _ _ hres => by
          rwa [← List.append_assoc])
        cases sent with
        | cons _ _ => exact hshort
        | nil => exact hshort
      · rename_i hfits
        have fits : bounded sp.policy = true → line.length ≤ v.left.toNat := by
          intro hb
          have : ¬ UInt64.ofNat line.length > v.left := fun hlt => hfits ⟨hb, hlt⟩
          rw [gt_iff_lt, UInt64.lt_iff_toNat_lt, length] at this
          omega
        refine (h₁.sendLine fits hshort).mono ?_
        rintro r j₂ l₂ ⟨v', hs', rfl, h₂⟩
        refine ⟨sent ++ [line], rest, hs', by simpa using hls, ?_, by rwa [← List.append_assoc]⟩
        rw [serving.offset, h₂.serving.offset]
        simp only [List.flatten_append, List.flatten_cons, List.flatten_nil, List.append_nil,
          List.length_append]
        omega

theorem getLoop_succeeds {ls : List Bytes} (h : Serving c before ls j) :
    Succeeds (Prog.loop .spent (getTurn fd sp) ((j.req.bytes - j.req.byteOffset).toNat + 1)
      { left := allowance sp j.req.deficit }) j (GetLoop fd sp c before ls j) := by
  have total := h.length
  refine Succeeds.loop
    (fun v j' l => ∃ sent rest hs, ls = sent ++ rest ∧ Sending fd sp c before sent rest hs j v j' l)
    (fun _ j' => c.length - j'.req.byteOffset.toNat) ?_ _ _ j ?_ ?_
  · rintro v j' l ⟨sent, rest, hs, hls, sending⟩
    refine (getTurn_succeeds sending hls).mono ?_
    rintro (v' | res) j'' l' hres
    · obtain ⟨sent', rest', hs', hls', further, sending'⟩ := hres
      have reached := sending'.serving.length
      have offset := sending'.serving.offset
      exact ⟨⟨sent', rest', hs', hls', sending'⟩, by omega⟩
    · exact hres
  · refine ⟨[], ls, [], rfl, ?_, by simpa using h, .nil, Puts.refl fd j.os, rfl, fun _ => by simp, rfl⟩
    simp
  · have offset := h.offset
    have size := h.size
    rw [UInt64.toNat_sub_of_le _ _ (UInt64.le_iff_toNat_le.mpr (by omega))]
    omega

end Loop

def headerOf (r : Request) : List Bytes := if r.started then [] else [formatOk r.bytes.toNat]

def begun (r : Request) : Request := { r with rounds := r.rounds + 1, started := true }

structure GetRound (fd : Int) (sp : SliceParams) (c : Bytes) (before ls : List Bytes) (j : Job)
    (res : SliceResult) (j' : Job) (l : List Event) : Prop where
  result : res = if (roundOf sp j.req.deficit ls).2 = [] then .done else .preempted
  req : j'.req =
    served sp (begun j.req) (roundOf sp j.req.deficit ls).1 (roundOf sp j.req.deficit ls).2
  serving : Serving c (before ++ (roundOf sp j.req.deficit ls).1) (roundOf sp j.req.deficit ls).2 j'
  puts : ∃ hs, Writes sp (roundOf sp j.req.deficit ls).1 hs ∧ Puts fd (headerOf j.req ++ hs)
    (a14Lines sp j.req (roundOf sp j.req.deficit ls).1) j.os j'.os l

theorem serveGet_succeeds {fd : Int} {c : Bytes} {before ls : List Bytes} {j : Job} (sp : SliceParams)
    (h : Serving c before ls j) : Succeeds (serveGet fd sp) j (GetRound fd sp c before ls j) := by
  refine setRequest_bind ?_
  refine .seq sendHeader_succeeds ?_
  rintro ok j₁ l₁ ⟨rfl, hreq, hput⟩
  rw [if_pos rfl]
  refine request_bind ?_
  have same : Serving c before ls j₁ :=
    h.same hput.sends (by rw [hreq]) (by rw [hreq]) (by rw [hreq])
  refine (getLoop_succeeds same).mono ?_
  rintro res j₂ l₂ loop
  have deficit : j₁.req.deficit = j.req.deficit := by rw [hreq]
  obtain ⟨hs, writes, puts⟩ := loop.puts
  refine ⟨deficit ▸ loop.result, ?_, deficit ▸ loop.serving, hs, deficit ▸ writes, ?_⟩
  · rw [loop.req, deficit, hreq]
    rfl
  · have put := hput.trans puts
    rw [deficit] at put
    simpa [a14Lines, hreq, headerOf] using put

def Job.Obliging (j : Job) : Prop := j.os.Obliging

section Tame
variable (fd : Int) (sp : SliceParams)

theorem onOs_tame {α : Type} {x : Sys α} (h : Tame Os.Obliging x) : Tame Job.Obliging (onOs x) :=
  Tame.zoom h fun _ _ => rfl

theorem request_tame : Tame Job.Obliging request := fun _ h => ⟨h, clean_nil⟩

theorem setRequest_tame (f : Request → Request) : Tame Job.Obliging (setRequest f) :=
  .modify fun _ h => h

theorem sendHeader_tame : Tame Job.Obliging (sendHeader fd) :=
  .bind request_tame fun _ => .ite (.pure _) (.bind (onOs_tame alloc_tame) fun _ =>
    .bind (onOs_tame (sendAll_tame fd _)) fun _ =>
      .ite (.bind (setRequest_tame _) fun _ => .pure _) (.pure _))

theorem logA14Fire_tame (id : Nat) (name : Bytes) (len quantum : UInt64) :
    Tame Os.Obliging (logA14Fire id name len quantum) :=
  .bind alloc_tame fun _ => .emit (by simp [Event.faulty])

theorem sendLongLine_tame (v : GetLocals) (len : UInt64) :
    Tame Job.Obliging (sendLongLine fd sp v len) :=
  .bind request_tame fun _ => .bind (onOs_tame (flush_tame v.batch fd)) fun _ =>
    .ite (.bind (onOs_tame (streamRange_tame _ fd _ _)) fun _ =>
      .ite (.bind (setRequest_tame _) fun _ =>
        .bind (onOs_tame (logA14Fire_tame _ _ _ _)) fun _ => .bind request_tame fun _ => .pure _)
        (.pure _)) (.pure _)

theorem endRound_tame (v : GetLocals) : Tame Job.Obliging (endRound fd sp v) :=
  .bind (onOs_tame (flush_tame v.batch fd)) fun _ =>
    .ite (.ite (.bind (setRequest_tame _) fun _ => .pure _)
      (.bind (setRequest_tame _) fun _ => .pure _)) (.pure _)

theorem emitLine_tame (b : Batch) (len : UInt64) : Tame Job.Obliging (emitLine fd sp b len) := by
  refine .bind request_tame fun r => .ite ?_ ?_
  · exact .bind (onOs_tame (flush_tame b fd)) fun _ =>
      .ite (.bind (onOs_tame (streamRange_tame _ fd _ _)) fun _ => .ite (.pure _) (.pure _)) (.pure _)
  · refine .bind (onOs_tame (appendRange_tame _ _ _ _)) fun x => .ite ?_ (.pure _)
    exact .ite (.bind (onOs_tame (flush_tame _ fd)) fun _ => .ite (.pure _) (.pure _)) (.pure _)

theorem getTurn_tame (v : GetLocals) : Tame Job.Obliging (getTurn fd sp v) := by
  refine .bind request_tame fun r => .ite ?_ (.map (.bind (onOs_tame (flush_tame v.batch fd)) fun _ =>
    .ite (.bind (setRequest_tame _) fun _ => .pure _) (.pure _)))
  refine .bind (onOs_tame (lineLengthAt_tame _ _ _)) fun len => .ite (.pure _) ?_
  refine .ite (.map (sendLongLine_tame fd sp v len)) (.ite (.map (endRound_tame fd sp v)) ?_)
  refine .bind (emitLine_tame fd sp v.batch len) fun b => ?_
  cases b with
  | none => exact .pure _
  | some b => exact .bind (setRequest_tame _) fun _ => .pure _

theorem serveGet_tame : Tame Job.Obliging (serveGet fd sp) :=
  .bind (setRequest_tame _) fun _ => .bind (sendHeader_tame fd) fun _ =>
    .ite (.bind request_tame fun _ => .loop (getTurn_tame fd sp) _ _) (.pure _)

end Tame

end LinkScheduling
