import LinkScheduling.Ledger

/-! The accounts of whole requests. The rounds of a GET that end keep the accounts of
`checkedRounds`, and one that fails part of the way has sent some of the lines of its round.
The rounds of a PUT keep those of `checkedPut`. -/

namespace LinkScheduling
open Effect Lines

/-- A round that sends some of its lines and stops keeps the other accounts as they are. -/
structure Partly (sp : SliceParams) (ls : List Bytes) (r r' : Request) : Prop where
  least : r.byteOffset.toNat ≤ r'.byteOffset.toNat
  most : r'.byteOffset.toNat ≤ r.byteOffset.toNat + (roundOf sp r.deficit ls).1.flatten.length
  forfeitedBytes : r'.forfeitedBytes = r.forfeitedBytes
  deficit : r'.deficit = r.deficit

def Fallen (v : Except Fault SliceResult) : Prop := v ≠ .ok .done ∧ v ≠ .ok .preempted

theorem fallen_failed : Fallen (.ok .failed) := ⟨by simp, by simp⟩

theorem fallen_error (e : Fault) : Fallen (.error e) := ⟨by simp, by simp⟩

def FallenTurn : Except Fault (GetLocals ⊕ SliceResult) → Prop
  | .ok (.inl _) => False
  | .ok (.inr res) => Fallen (.ok res)
  | .error _ => True

section Turn
variable {fd : Int} {sp : SliceParams} {c : Bytes} {before sent rest ls hs : List Bytes} {j j' : Job}
  {v : GetLocals} {l : List Event}

theorem Fallen.map {x : Slice SliceResult} {j : Job} {Q : Job → Prop}
    (h : wp x j fun v j' _ => Fallen v → Q j') :
    wp (.inr <$> x : Slice (GetLocals ⊕ SliceResult)) j fun v j' _ => FallenTurn v → Q j' := by
  refine wp_seq h ?_ fun e j' l hq _ => hq (fallen_error e)
  exact fun res j' l hq fallen => hq fallen

theorem sendLongLine_fallen (len : UInt64) (j : Job) : wp (sendLongLine fd sp v len) j fun v' j' _ =>
    Fallen v' → j'.req = j.req ∨ j'.req = { j.req with byteOffset := j.req.byteOffset + len } := by
  unfold sendLongLine
  rw [wp_request_bind]
  refine wp_onOs_any (fun ok os => ?_) fun _ _ _ => .inl rfl
  split
  · refine wp_onOs_any (fun ok os => ?_) fun _ _ _ => .inl rfl
    split
    · rw [wp_setRequest_bind]
      refine wp_onOs_any (fun _ os => ?_) fun _ _ _ => .inr rfl
      rw [wp_request_bind, wp_pure]
      exact fun _ => .inr rfl
    · exact fun _ => .inl rfl
  · exact fun _ => .inl rfl

theorem endRound_fallen (j : Job) : wp (endRound fd sp v) j fun v' j' _ => Fallen v' → j'.req = j.req := by
  unfold endRound
  refine wp_onOs_any (fun ok os => ?_) fun _ _ _ => rfl
  split
  · split
    · rw [wp_setRequest_bind]
      exact fun fallen => absurd rfl fallen.2
    · rw [wp_setRequest_bind]
      exact fun fallen => absurd rfl fallen.2
  · exact fun _ => rfl

theorem finishGet_fallen (j : Job) : wp (finishGet fd v) j fun v' j' _ => Fallen v' → j'.req = j.req := by
  unfold finishGet
  refine wp_onOs_any (fun ok os => ?_) fun _ _ _ => rfl
  split
  · rw [wp_setRequest_bind]
    exact fun fallen => absurd rfl fallen.1
  · exact fun _ => rfl

theorem emitLine_stays (b : Batch) (len : UInt64) (j : Job) :
    wp (emitLine fd sp b len) j fun _ j' _ => j'.req = j.req := by
  unfold emitLine
  rw [wp_request_bind]
  split
  · refine wp_onOs_any (fun ok os => ?_) fun _ _ => rfl
    split
    · refine wp_onOs_any (fun ok os => ?_) fun _ _ => rfl
      split <;> rfl
    · rfl
  · refine wp_onOs_any (fun x os => ?_) fun _ _ => rfl
    obtain ⟨ok, data⟩ := x
    simp only
    split
    · split
      · refine wp_onOs_any (fun ok os => ?_) fun _ _ => rfl
        split <;> rfl
      · rfl
    · rfl

theorem sendLine_fallen (len : UInt64) (j : Job) : wp (sendLine fd sp v len) j fun v' j' _ =>
    FallenTurn v' → j'.req = j.req := by
  unfold sendLine
  refine wp_seq (emitLine_stays v.batch len j) ?_ fun _ _ _ same _ => same
  rintro (none | b) j' l same
  · exact fun _ => same
  · simp only
    rw [wp_setRequest_bind, wp_pure]
    exact fun fallen => fallen.elim

theorem getTurn_fallen (h : Serving c (before ++ sent) rest j) (spent : v.sentThisRound = 0 → sent = []) :
    wp (getTurn fd sp v) j fun v' j' _ => FallenTurn v' → j'.req = j.req ∨
      ∃ line rest', sent = [] ∧ rest = line :: rest' ∧ longFirst sp (line :: rest') = true ∧
        j'.req = { j.req with byteOffset := j.req.byteOffset + UInt64.ofNat line.length } := by
  unfold getTurn
  rw [wp_request_bind]
  split
  · rename_i more
    cases rest with
    | nil => exact absurd rfl (h.unfinished.mp more)
    | cons line rest =>
      refine wp_seq (onOs_spec (wp_and (h.lineLength fd) ((lineLengthAt_reports _ _ _).wp _))) ?_ ?_
      · rintro len ⟨req, os⟩ l ⟨rfl, exact, reports⟩
        split
        · exact fun _ => .inl rfl
        · rename_i nonzero
          obtain ⟨len', hlen, rfl, -⟩ := exact (reports len rfl nonzero)
          cases hlen
          split
          · rename_i hlong
            refine Fallen.map (wp_mono (sendLongLine_fallen _ _) ?_)
            rintro v' j' l' result fallen
            refine (result fallen).imp id fun moved => ⟨line, rest, spent hlong.2.1, rfl, ?_, moved⟩
            have length := hlong.2.2
            rw [gt_iff_lt, UInt64.lt_iff_toNat_lt, UInt64.toNat_ofNat'] at length
            have fits := Nat.mod_le line.length (2 ^ 64)
            simp only [longFirst, Bool.and_eq_true, decide_eq_true_eq]
            exact ⟨hlong.1, by omega⟩
          · split
            · exact Fallen.map (wp_mono (endRound_fallen _) fun _ _ _ same fallen => .inl (same fallen))
            · exact wp_mono (sendLine_fallen _ _) fun _ _ _ same fallen => .inl (same fallen)
      · rintro e ⟨req, os⟩ l ⟨rfl, -, -⟩
        exact fun _ => .inl rfl
  · exact Fallen.map (wp_mono (finishGet_fallen _) fun _ _ _ same fallen => .inl (same fallen))

theorem Sending.within (h : Sending fd sp c before sent rest hs j v j' l) (hls : ls = sent ++ rest) :
    sent.flatten.length ≤ (roundOf sp j.req.deficit ls).1.flatten.length := by
  subst hls
  cases hb : bounded sp.policy with
  | false =>
    rw [roundOf_free hb, List.flatten_append, List.length_append]
    exact Nat.le_add_right _ _
  | true =>
    cases sent with
    | nil => exact Nat.zero_le _
    | cons line sent =>
      have left := h.left hb
      have fits : Packing.total List.length (line :: sent) ≤ (allowance sp j.req.deficit).toNat := by
        rw [total_length]
        omega
      have short : longFirst sp (line :: sent ++ rest) = false := h.short
      rw [roundOf_short hb j.req.deficit short, ← total_length, ← total_length]
      exact Packing.total_le_fit List.length (line :: sent) rest fits

theorem getLoop_fallen (h : Serving c before ls j) :
    wp (Prog.loop .spent (getTurn fd sp) ((j.req.bytes - j.req.byteOffset).toNat + 1)
      { left := allowance sp j.req.deficit }) j fun v j' _ => Fallen v → Partly sp ls j.req j'.req := by
  have total := h.length
  have small := h.small
  have bound : offLimit = 2 ^ 63 := rfl
  refine wp_loop
    (fun v j' l => ∃ sent rest hs, ls = sent ++ rest ∧ Sending fd sp c before sent rest hs j v j' l)
    (fun _ j' => c.length - j'.req.byteOffset.toNat) ?_ _ _ j ?_ ?_
  · rintro v j' l ⟨sent, rest, hs, hls, sending⟩
    have offset := sending.serving.offset
    have start := h.offset
    have within := sending.within hls
    rw [List.flatten_append, List.length_append] at offset
    have spent : v.sentThisRound = 0 → sent = [] := by
      intro zero
      have nothing := sending.sentThisRound
      rw [zero] at nothing
      cases sent with
      | nil => rfl
      | cons first _ =>
        have pos : 0 < first.length := line_length_pos (c := c) (by simp [sending.serving.cut])
        simp only [List.flatten_cons, List.length_append, UInt64.toNat_zero] at nothing
        omega
    -- What is left of the round by a turn that falls
    have fell : ∀ r : Request, r = j'.req ∨ (∃ line rest', sent = [] ∧ rest = line :: rest' ∧
        longFirst sp (line :: rest') = true ∧
        r = { j'.req with byteOffset := j'.req.byteOffset + UInt64.ofNat line.length }) →
        Partly sp ls j.req r := by
      rintro r (rfl | ⟨line, rest', rfl, rfl, hlong, rfl⟩)
      · exact ⟨by omega, by omega, by rw [sending.req], by rw [sending.req]⟩
      · rw [List.nil_append] at hls
        subst hls
        have size : (line :: rest').flatten.length = line.length + rest'.flatten.length := by
          rw [List.flatten_cons, List.length_append]
        have moved : (j'.req.byteOffset + UInt64.ofNat line.length).toNat =
            j.req.byteOffset.toNat + line.length := by
          rw [UInt64.toNat_add, UInt64.toNat_ofNat', offset, ← start]
          simp only [List.flatten_nil, List.length_nil]
          omega
        have round := roundOf_long j.req.deficit hlong
        refine ⟨?_, ?_, by rw [sending.req], by rw [sending.req]⟩
        · simp only [moved]
          exact Nat.le_add_right _ _
        · simp only [moved, round, List.flatten_cons, List.flatten_nil, List.append_nil]
          exact Nat.le_refl _
    refine wp_mono (wp_and (getTurn_succeeds sending hls)
      (wp_and (getTurn_fallen sending.serving spent) ((getTurn_reports fd sp v).wp j'))) ?_
    rintro (e | v' | res) j'' l' ⟨exact, fallen, reports⟩
    · exact fun _ => fell _ (fallen trivial)
    · obtain ⟨r, hr, result⟩ := exact (reports _ rfl (by simp [Unfailed]))
      cases hr
      obtain ⟨sent', rest', hs', hls', further, sending'⟩ := result
      have reached := sending'.serving.length
      have offset' := sending'.serving.offset
      exact ⟨⟨sent', rest', hs', hls', sending'⟩, by omega⟩
    · exact fun fall => fell _ (fallen fall)
  · refine ⟨[], ls, [], rfl, ?_, by simpa using h, .nil, Puts.refl fd j.os, rfl, fun _ => by simp, rfl⟩
    simp
  · have offset := h.offset
    have size := h.size
    rw [UInt64.toNat_sub_of_le _ _ (UInt64.le_iff_toNat_le.mpr (by omega))]
    omega

theorem sendHeader_stays (j : Job) : wp (sendHeader fd) j fun _ j' _ =>
    j'.req = { j.req with started := j'.req.started } := by
  unfold sendHeader
  rw [wp_request_bind]
  split
  · rfl
  · refine wp_onOs_any (fun _ os => ?_) fun _ _ => rfl
    refine wp_onOs_any (fun ok os => ?_) fun _ _ => rfl
    split <;> rfl

theorem serveGet_fallen (h : Serving c before ls j) : wp (serveGet fd sp) j fun v j' _ =>
    Fallen v → Partly sp ls j.req j'.req := by
  have nothing : ∀ r : Request, r.byteOffset = j.req.byteOffset → r.forfeitedBytes = j.req.forfeitedBytes →
      r.deficit = j.req.deficit → Partly sp ls j.req r := by
    intro r offset forfeited deficit
    exact ⟨by rw [offset], by rw [offset]; exact Nat.le_add_right _ _, forfeited, deficit⟩
  unfold serveGet
  rw [wp_setRequest_bind]
  refine wp_seq (wp_and (sendHeader_stays _) ((sendHeader_moves fd).wp _)) ?_ ?_
  · rintro ok ⟨req, os⟩ l ⟨same, reading⟩
    have files := reading.files
    simp only at same files
    split
    · rw [wp_request_bind]
      have serving : Serving c before ls ⟨req, os⟩ := by
        refine ⟨?_, by rw [same]; exact h.size, h.small, h.cut, by rw [same]; exact h.offset⟩
        simp only [files]
        rw [same]
        exact h.content
      refine wp_mono (getLoop_fallen serving) ?_
      intro v j' l' result fallen
      obtain ⟨least, most, forfeited, deficit⟩ := result fallen
      rw [same] at least most forfeited deficit
      exact ⟨least, most, forfeited, deficit⟩
    · rw [wp_pure]
      exact fun _ => nothing req (by rw [same]) (by rw [same]) (by rw [same])
  · rintro e ⟨req, os⟩ l ⟨same, -⟩ -
    simp only at same
    exact nothing _ (by rw [same]) (by rw [same]) (by rw [same])

theorem serveOrReport_falls {Q : Except Fault SliceResult → Job → List Event → Prop}
    (slice : wp (serveSlice fd sp) j Q)
    (falls : ∀ e j' l v j'' l', Q (.error e) j' l → j''.req = j'.req → Fallen v → Q v j'' (l ++ l')) :
    wp (serveOrReport fd sp) j Q := by
  rw [serveOrReport, wp_rescue]
  refine wp_mono slice ?_
  rintro (e | res) j' l result
  · cases e with
    | thrown =>
      have answered : wp (do onOs (sendError fd (ascii "internal error")); pure .failed : Slice SliceResult) j'
          fun v j'' _ => j''.req = j'.req ∧ Fallen v :=
        wp_onOs_any (fun _ os => (wp_pure ..).mpr ⟨rfl, fallen_failed⟩) fun _ _ => ⟨rfl, fallen_error _⟩
      exact wp_mono answered fun v j'' l' h => falls _ _ _ _ _ _ result h.1 h.2
    | spent =>
      exact falls _ _ _ (.error .spent) j' [] result rfl (fallen_error _)
  · exact result

theorem serveOrReport_get (h : Serving c before ls j) (hop : j.req.op = .get) :
    wp (serveOrReport fd sp) j fun v j' l => (∀ res, v = .ok res → ¬ Fallen v →
      GetRound fd sp c before ls j res j' l) ∧ (Fallen v → Partly sp ls j.req j'.req) := by
  apply serveOrReport_falls
  · unfold wp
    rw [serveSlice_get fd sp hop]
    refine ⟨fun res hv unfallen => ?_, serveGet_fallen h⟩
    have good : res ≠ .failed := by
      rintro rfl
      exact unfallen (hv ▸ fallen_failed)
    obtain ⟨res', hv', round⟩ := serveGet_succeeds sp h (serveGet_reports fd sp j res hv good)
    rw [hv] at hv'
    cases hv'
    exact round
  · rintro e j' l v j'' l' ⟨-, fallen⟩ same falls
    refine ⟨fun res _ unfallen => absurd falls unfallen, fun _ => ?_⟩
    rw [same]
    exact fallen (fallen_error e)

end Turn

/-- The rounds that workers serve of one GET. Between them others may change the world, except
for the content of its open file. -/
inductive Resumed (fd : Int) (sp : SliceParams) (c : Bytes) : Job → List Round → Prop
  | none (j : Job) : Resumed fd sp c j []
  | last {j : Job} : (serveOrReport fd sp j).value ≠ .ok .preempted →
      Resumed fd sp c j [serveOrReport fd sp j]
  | more {j : Job} {rounds : List Round} (os : Os) : (serveOrReport fd sp j).value = .ok .preempted →
      os.files.contentOf (serveOrReport fd sp j).state.req.fileFd = some c →
      Resumed fd sp c ⟨(serveOrReport fd sp j).state.req, os⟩ rounds →
      Resumed fd sp c j (serveOrReport fd sp j :: rounds)

/-- The forfeited bytes after a round that ends. What the round adds to them is less than the
line that starts the next one. -/
structure Settled (c : Bytes) (r : Request) (entry : SliceResult × Ledger) : Prop where
  grows : r.forfeitedBytes.toNat ≤ entry.2.forfeitedBytes
  charged : entry.1 = .preempted → ∃ line rest, lines newline (c.drop entry.2.byteOffset) = line :: rest ∧
    entry.2.forfeitedBytes - r.forfeitedBytes.toNat < line.length
  less : c ≠ [] → entry.2.forfeitedBytes < c.length

/-- The rounds of a GET keep the accounts `entries`, up to a last one that falls. -/
inductive Accounted (c : Bytes) : Request → List Round → List (SliceResult × Ledger) → Prop
  | none (r : Request) : Accounted c r [] []
  | fell {r : Request} {o : Round} {entry : SliceResult × Ledger} : Fallen o.value →
      r.byteOffset.toNat ≤ o.state.req.byteOffset.toNat →
      o.state.req.byteOffset.toNat ≤ entry.2.byteOffset →
      o.state.req.forfeitedBytes = r.forfeitedBytes → o.state.req.deficit = r.deficit →
      Settled c r entry → Accounted c r [o] [entry]
  | ended {r : Request} {o : Round} {entry : SliceResult × Ledger} {rounds : List Round}
      {later : List (SliceResult × Ledger)} : o.value = .ok entry.1 → ledgerOf o.state.req = entry.2 →
      Settled c r entry → Accounted c o.state.req rounds later →
      Accounted c r (o :: rounds) (entry :: later)

section Get
variable {fd : Int} {sp : SliceParams} {c : Bytes} {before ls : List Bytes} {r : Request} {j : Job}

def entryOf (sp : SliceParams) (ls : List Bytes) (r : Request) : SliceResult × Ledger :=
  (if (roundOf sp r.deficit ls).2 = [] then .done else .preempted,
    ledgerOf (served sp (begun r) (roundOf sp r.deficit ls).1 (roundOf sp r.deficit ls).2))

theorem Booked.checkedRounds_last (h : Booked c before ls r) (fuel : Nat)
    (finished : (roundOf sp r.deficit ls).2 = []) :
    checkedRounds sp c.length (fuel + 1) (ls.map List.length) (ledgerOf r) = some [entryOf sp ls r] := by
  rw [checkedRounds, checkedRound_eq h sp, entryOf]
  simp only [Option.bind_eq_bind, Option.bind_some, if_pos finished, reduceCtorEq, if_false]

theorem Booked.checkedRounds_more (h : Booked c before ls r) (fuel : Nat)
    (unfinished : (roundOf sp r.deficit ls).2 ≠ []) {later : List (SliceResult × Ledger)}
    (rest : checkedRounds sp c.length fuel ((roundOf sp r.deficit ls).2.map List.length)
      (entryOf sp ls r).2 = some later) :
    checkedRounds sp c.length (fuel + 1) (ls.map List.length) (ledgerOf r) =
      some (entryOf sp ls r :: later) := by
  rw [entryOf] at rest ⊢
  rw [checkedRounds, checkedRound_eq h sp]
  simp only [Option.bind_eq_bind, Option.bind_some, if_neg unfinished, if_true, rest]

theorem Booked.checked (h : Booked c before ls r) (sp : SliceParams) (fuel : Nat) :
    ∃ L, checkedRounds sp c.length fuel (ls.map List.length) (ledgerOf r) = some L := by
  induction fuel generalizing before ls r with
  | zero => exact ⟨[], rfl⟩
  | succ fuel ih =>
    by_cases finished : (roundOf sp r.deficit ls).2 = []
    · exact ⟨_, h.checkedRounds_last fuel finished⟩
    · obtain ⟨later, rest⟩ := ih (h.step sp)
      exact ⟨_, h.checkedRounds_more fuel finished rest⟩

theorem FreshGet.booked (h : FreshGet c j) : Booked c [] (lines newline c) j.req where
  cut := rfl
  small := h.small
  offset := by rw [h.byteOffset]; rfl
  forfeited := by rw [h.forfeitedBytes]; exact Nat.zero_le _

theorem Booked.settled (h : Booked c before ls r) (sp : SliceParams) : Settled c r (entryOf sp ls r) := by
  have next := h.step sp
  have total := next.length
  have small := h.small
  have tail := headSize_le (roundOf sp r.deficit ls).2
  have forfeited := next.forfeited
  have accounts := @served_forfeited sp (begun r) (roundOf sp r.deficit ls).1 (roundOf sp r.deficit ls).2
    (fun short hp => sent_le hp short) fun hp unfinished short => by
      have := h.charge hp unfinished short
      rw [List.flatten_append, List.length_append] at total
      simp only [begun]
      omega
  have start : (begun r).forfeitedBytes = r.forfeitedBytes := rfl
  rw [start] at accounts
  refine ⟨?_, ?_, ?_⟩
  · simp only [entryOf, ledgerOf, accounts]
    split
    · exact Nat.le_add_right _ _
    · exact Nat.le_refl _
  · intro preempted
    have unfinished : (roundOf sp r.deficit ls).2 ≠ [] := by
      intro finished
      simp [entryOf, finished] at preempted
    obtain ⟨line, rest, hrest⟩ := List.exists_cons_of_ne_nil unfinished
    have offset := next.offset
    refine ⟨line, rest, ?_, ?_⟩
    · simp only [entryOf, ledgerOf, offset]
      have whole : (lines newline c).flatten = c := lines_flatten c
      rw [next.cut, List.flatten_append] at whole
      rw [← whole, List.drop_left, lines_suffix next.cut, hrest]
    · have pos := List.length_pos_iff.mpr (next.nonempty line (by rw [hrest]; exact List.mem_cons_self))
      simp only [entryOf, ledgerOf, accounts]
      split
      · rename_i escape
        have unused := unused_lt escape.1 unfinished
        rw [hrest, headSize] at unused
        omega
      · omega
  · intro nonempty
    have pos := List.length_pos_iff.mpr nonempty
    simp only [entryOf, ledgerOf]
    omega

theorem GetRound.entry {res : SliceResult} {j' : Job} {l : List Event}
    (round : GetRound fd sp c before ls j res j' l) :
    res = (entryOf sp ls j.req).1 ∧ ledgerOf j'.req = (entryOf sp ls j.req).2 := by
  refine ⟨round.result, ?_⟩
  rw [round.req]
  rfl

theorem Resumed.accounted {rounds : List Round} (run : Resumed fd sp c j rounds)
    (serving : Serving c before ls j) (hop : j.req.op = .get) (booked : Booked c before ls j.req) :
    ∃ L, checkedRounds sp c.length rounds.length (ls.map List.length) (ledgerOf j.req) = some L ∧
      Accounted c j.req rounds L := by
  induction run generalizing before ls with
  | none j => exact ⟨[], rfl, .none _⟩
  | @last j ends =>
    obtain ⟨round, partly⟩ : wp (serveOrReport fd sp) j _ := serveOrReport_get serving hop
    have single : checkedRounds sp c.length 1 (ls.map List.length) (ledgerOf j.req) =
        some [entryOf sp ls j.req] := by
      by_cases finished : (roundOf sp j.req.deficit ls).2 = []
      · exact booked.checkedRounds_last 0 finished
      · exact booked.checkedRounds_more 0 finished rfl
    refine ⟨_, single, ?_⟩
    by_cases fallen : Fallen (serveOrReport fd sp j).value
    · obtain ⟨least, most, forfeited, deficit⟩ := partly fallen
      have offset := (booked.step sp).offset
      rw [List.flatten_append, List.length_append, ← booked.offset] at offset
      exact .fell fallen least (most.trans (Nat.le_of_eq offset.symm)) forfeited deficit (booked.settled sp)
    · have done : (serveOrReport fd sp j).value = .ok .done := by
        by_contra other
        exact fallen ⟨other, ends⟩
      obtain ⟨result, ledger⟩ := (round _ done fallen).entry
      exact .ended (done.trans (congrArg _ result)) ledger (booked.settled sp) (.none _)
  | @more j rounds os preempted kept _ ih =>
    obtain ⟨round, -⟩ : wp (serveOrReport fd sp) j _ := serveOrReport_get serving hop
    have round := round _ preempted fun fallen => fallen.2 preempted
    obtain ⟨result, ledger⟩ := round.entry
    have unfinished : (roundOf sp j.req.deficit ls).2 ≠ [] := by
      intro finished
      simp [entryOf, finished] at result
    have next := booked.step sp
    rw [← round.req] at next
    have serving' : Serving c (before ++ (roundOf sp j.req.deficit ls).1) (roundOf sp j.req.deficit ls).2
        ⟨(serveOrReport fd sp j).state.req, os⟩ :=
      ⟨kept, round.serving.size, round.serving.small, round.serving.cut, round.serving.offset⟩
    have same := congrArg Request.op (serveOrReport_apart fd sp j).fixed
    obtain ⟨later, rest, accounted⟩ := ih serving' (same.trans hop) next
    refine ⟨_, booked.checkedRounds_more rounds.length unfinished ?_,
      .ended (preempted.trans (congrArg _ result)) ledger (booked.settled sp) accounted⟩
    rwa [← ledger]

end Get

def checkedChunks (take size : Nat) : Nat → Nat → Nat → Option Nat
  | 0, _, _ => none
  | fuel + 1, done, offset =>
    if done < take then do
      let remaining ← checkedSub take done
      let offset ← checkedAdd offset (min size remaining)
      let done ← checkedAdd done (min size remaining)
      checkedChunks take size fuel done offset
    else some offset

def checkedPut (sp : SliceParams) (bytes offset : Nat) : Option Nat := do
  let remaining ← checkedSub bytes offset
  let take := if bounded sp.policy then min sp.quantum.toNat remaining else remaining
  checkedChunks take (min take 65536) (take + 1) 0 offset

def checkedPuts (sp : SliceParams) (bytes : Nat) : Nat → Nat → Option (List (SliceResult × Nat))
  | 0, _ => some []
  | fuel + 1, offset => do
    let offset ← checkedPut sp bytes offset
    if offset < bytes then do
      let later ← checkedPuts sp bytes fuel offset
      some ((.preempted, offset) :: later)
    else some [(.done, offset)]

/-- The rounds of a PUT keep the accounts `entries`, up to a last one that falls. -/
inductive Tracked : Request → List Round → List (SliceResult × Nat) → Prop
  | none (r : Request) : Tracked r [] []
  | fell {r : Request} {o : Round} {entry : SliceResult × Nat} : Fallen o.value →
      r.byteOffset.toNat ≤ o.state.req.byteOffset.toNat → o.state.req.byteOffset.toNat ≤ entry.2 →
      Tracked r [o] [entry]
  | ended {r : Request} {o : Round} {entry : SliceResult × Nat} {rounds : List Round}
      {later : List (SliceResult × Nat)} : o.value = .ok entry.1 → o.state.req.byteOffset.toNat = entry.2 →
      Tracked o.state.req rounds later → Tracked r (o :: rounds) (entry :: later)

section Put
variable {fd : Int} {sp : SliceParams} {bytes offset : Nat} {j : Job}

def takeFrom (sp : SliceParams) (bytes offset : Nat) : Nat :=
  if bounded sp.policy then min sp.quantum.toNat (bytes - offset) else bytes - offset

theorem takeFrom_le : takeFrom sp bytes offset ≤ bytes - offset := by
  unfold takeFrom
  split
  · exact Nat.min_le_right _ _
  · exact Nat.le_refl _

theorem checkedChunks_eq {take size fuel done : Nat} (pos : done < take → 0 < size) (le : done ≤ take)
    (enough : take - done < fuel) (small : offset + (take - done) < 2 ^ 64) (fits : take < 2 ^ 64) :
    checkedChunks take size fuel done offset = some (offset + (take - done)) := by
  induction fuel generalizing done offset with
  | zero => omega
  | succ fuel ih =>
    rw [checkedChunks]
    by_cases more : done < take
    · have pos := pos more
      rw [if_pos more, checkedSub_eq le]
      simp only [Option.bind_eq_bind, Option.bind_some]
      rw [checkedAdd_eq (by omega), checkedAdd_eq (by omega)]
      simp only [Option.bind_some]
      rw [ih (fun _ => pos) (by omega) (by omega) (by omega)]
      congr 1
      omega
    · rw [if_neg more]
      congr 1
      omega

theorem checkedPut_eq (within : offset ≤ bytes) (small : bytes < 2 ^ 64) :
    checkedPut sp bytes offset = some (offset + takeFrom sp bytes offset) := by
  have le : takeFrom sp bytes offset ≤ bytes - offset := takeFrom_le
  rw [checkedPut, checkedSub_eq within]
  change checkedChunks (takeFrom sp bytes offset) (min (takeFrom sp bytes offset) 65536)
    (takeFrom sp bytes offset + 1) 0 offset = _
  rw [checkedChunks_eq (fun pos => by omega) (Nat.zero_le _) (by omega) (by omega) (by omega), Nat.sub_zero]

theorem checkedPuts_last {fuel : Nat} (within : offset ≤ bytes) (small : bytes < 2 ^ 64)
    (finished : ¬ offset + takeFrom sp bytes offset < bytes) :
    checkedPuts sp bytes (fuel + 1) offset = some [(.done, offset + takeFrom sp bytes offset)] := by
  rw [checkedPuts, checkedPut_eq within small]
  simp only [Option.bind_eq_bind, Option.bind_some, if_neg finished]

theorem checkedPuts_more {fuel : Nat} (within : offset ≤ bytes) (small : bytes < 2 ^ 64)
    (unfinished : offset + takeFrom sp bytes offset < bytes) {later : List (SliceResult × Nat)}
    (rest : checkedPuts sp bytes fuel (offset + takeFrom sp bytes offset) = some later) :
    checkedPuts sp bytes (fuel + 1) offset =
      some ((.preempted, offset + takeFrom sp bytes offset) :: later) := by
  rw [checkedPuts, checkedPut_eq within small]
  simp only [Option.bind_eq_bind, Option.bind_some, if_pos unfinished, rest]

theorem checkedPuts_total (within : offset ≤ bytes) (small : bytes < 2 ^ 64) (fuel : Nat) :
    ∃ L, checkedPuts sp bytes fuel offset = some L := by
  induction fuel generalizing offset with
  | zero => exact ⟨[], rfl⟩
  | succ fuel ih =>
    by_cases unfinished : offset + takeFrom sp bytes offset < bytes
    · obtain ⟨later, rest⟩ := ih (Nat.le_of_lt unfinished)
      exact ⟨_, checkedPuts_more within small unfinished rest⟩
    · exact ⟨_, checkedPuts_last within small unfinished⟩

theorem takeFrom_eq {r : Request} (within : r.byteOffset ≤ r.bytes) :
    takeFrom sp r.bytes.toNat r.byteOffset.toNat = (takeOf sp r).toNat := (takeOf_left sp within).symm

theorem putTurn_fallen (take size done : UInt64) (j : Job) : wp (putTurn fd take size done) j fun v j' _ =>
    (∀ d, v ≠ .ok (.inl d)) → j'.req.byteOffset = j.req.byteOffset := by
  unfold putTurn
  split
  · rw [wp_request_bind]
    refine wp_onOs_any (fun x os => ?_) fun _ _ _ => rfl
    rw [wp_setRequest_bind]
    split
    · refine wp_onOs_any (fun ok os => ?_) fun _ _ _ => rfl
      split
      · rw [wp_setRequest_bind, wp_pure]
        exact fun never => absurd rfl (never _)
      · exact wp_onOs_any (fun _ _ _ => rfl) fun _ _ _ => rfl
    · exact wp_onOs_any (fun _ _ _ => rfl) fun _ _ _ => rfl
  · exact fun _ => rfl

theorem putLoop_within {take size : UInt64} (hsize : 0 < take → 0 < size) (j : Job) :
    wp (Prog.loop .spent (putTurn fd take size) (take.toNat + 1) 0) j fun _ j' _ =>
      ∃ d ≤ take, j'.req.byteOffset = j.req.byteOffset + d := by
  refine wp_loop (fun done j' _ => done ≤ take ∧ j'.req.byteOffset = j.req.byteOffset + done)
    (fun done _ => take.toNat - done.toNat) ?_ _ _ _ ⟨UInt64.zero_le, (UInt64.add_zero _).symm⟩ (by simp)
  rintro done j' l ⟨le, offset⟩
  refine wp_mono (wp_and (putTurn_advances take size done j') (putTurn_fallen take size done j')) ?_
  rintro (e | d | ok) j'' l' ⟨h, fallen⟩
  · exact ⟨done, le, (fallen (by simp)).trans offset⟩
  · obtain ⟨lt, rfl, -, offset'⟩ := h
    obtain ⟨le', further⟩ := further_done hsize lt le
    refine ⟨⟨le', ?_⟩, further⟩
    rw [offset', offset, UInt64.add_assoc]
  · exact ⟨done, le, (fallen (by simp)).trans offset⟩

theorem servePut_within (j : Job) : wp (servePut fd sp) j fun _ j' _ =>
    ∃ d ≤ takeOf sp j.req, j'.req.byteOffset = j.req.byteOffset + d := by
  have nothing : ∀ r : Request, r.byteOffset = j.req.byteOffset →
      ∃ d ≤ takeOf sp j.req, r.byteOffset = j.req.byteOffset + d :=
    fun r same => ⟨0, UInt64.zero_le, by rw [same, UInt64.add_zero]⟩
  unfold servePut
  rw [wp_setRequest_bind]
  refine wp_seq (beginPut_stays _) ?_ fun _ _ _ h => nothing _ h.2
  rintro ok j₁ l₁ ⟨bytes₁, offset₁⟩
  simp only at bytes₁ offset₁
  split
  · rw [wp_request_bind]
    have same : (if bounded sp.policy then min sp.quantum (j₁.req.bytes - j₁.req.byteOffset)
        else j₁.req.bytes - j₁.req.byteOffset) = takeOf sp j.req := by
      rw [takeOf, bytes₁, offset₁]
    simp only [same]
    refine wp_onOs_any (Q := fun _ j' => ∃ d ≤ takeOf sp j.req, j'.req.byteOffset = j.req.byteOffset + d)
      (fun _ os => ?_) fun _ _ => nothing _ offset₁
    refine wp_seq (putLoop_within chunk_pos _) ?_ ?_
    · rintro ok j₂ l₂ ⟨d, le, offset₂⟩
      simp only [offset₁] at offset₂
      split
      · rw [wp_request_bind]
        split
        · exact ⟨d, le, offset₂⟩
        · refine wp_mono (installPut_stays j₂) ?_
          rintro v j₃ l₃ ⟨-, offset₃⟩
          exact ⟨d, le, offset₃.trans offset₂⟩
      · exact ⟨d, le, offset₂⟩
    · rintro e j₂ l₂ ⟨d, le, offset₂⟩
      exact ⟨d, le, offset₂.trans (by rw [offset₁])⟩
  · exact nothing _ offset₁

theorem serveOrReport_moves (hop : j.req.op = .put) : wp (serveOrReport fd sp) j fun v j' _ =>
    (∃ d ≤ takeOf sp j.req, j'.req.byteOffset = j.req.byteOffset + d) ∧ (¬ Fallen v →
      j'.req.bytes = j.req.bytes ∧ j'.req.byteOffset = j.req.byteOffset + takeOf sp j.req ∧
      (v = .ok .preempted ↔ j'.req.byteOffset < j'.req.bytes)) := by
  apply serveOrReport_falls
  · unfold wp
    rw [serveSlice_put fd sp hop]
    refine ⟨servePut_within j, fun unfallen => servePut_advances j ?_⟩
    by_contra other
    exact unfallen ⟨fun done => other (.inr done), fun preempted => other (.inl preempted)⟩
  · rintro e j' l v j'' l' ⟨within, -⟩ same falls
    rw [same]
    exact ⟨within, fun unfallen => absurd falls unfallen⟩

theorem moved_toNat {r : Request} {d : UInt64} (within : r.byteOffset ≤ r.bytes) (le : d ≤ takeOf sp r) :
    (r.byteOffset + d).toNat = r.byteOffset.toNat + d.toNat := by
  have room : takeFrom sp r.bytes.toNat r.byteOffset.toNat ≤ _ := takeFrom_le
  rw [takeFrom_eq within] at room
  rw [UInt64.le_iff_toNat_le] at within le
  have top := r.bytes.toNat_lt
  rw [UInt64.toNat_add]
  omega

theorem Interleaved.tracked {rounds : List Round} (run : Interleaved fd sp j rounds) (hop : j.req.op = .put)
    (within : j.req.byteOffset ≤ j.req.bytes) :
    ∃ L, checkedPuts sp j.req.bytes.toNat rounds.length j.req.byteOffset.toNat = some L ∧
      Tracked j.req rounds L := by
  induction run with
  | none j => exact ⟨[], rfl, .none _⟩
  | @last j ends =>
    have le := UInt64.le_iff_toNat_le.mp within
    have top := j.req.bytes.toNat_lt
    obtain ⟨⟨d, least, partly⟩, moved⟩ : wp (serveOrReport fd sp) j _ := serveOrReport_moves hop
    have offset := moved_toNat within least
    have reach := moved_toNat within (UInt64.le_refl (takeOf sp j.req))
    have whole : takeFrom sp _ _ = _ := takeFrom_eq within
    rw [UInt64.le_iff_toNat_le] at least
    have single : ∃ res, checkedPuts sp j.req.bytes.toNat 1 j.req.byteOffset.toNat =
          some [(res, j.req.byteOffset.toNat + (takeOf sp j.req).toNat)] ∧
        (res = .done ↔ ¬ j.req.byteOffset.toNat + (takeOf sp j.req).toNat < j.req.bytes.toNat) := by
      rw [← whole]
      by_cases more : j.req.byteOffset.toNat + takeFrom sp j.req.bytes.toNat j.req.byteOffset.toNat <
          j.req.bytes.toNat
      · exact ⟨_, checkedPuts_more le top more rfl, by simp [more]⟩
      · exact ⟨_, checkedPuts_last le top more, by simp [more]⟩
    obtain ⟨res, checked, finished⟩ := single
    refine ⟨_, checked, ?_⟩
    by_cases fallen : Fallen (serveOrReport fd sp j).value
    · refine .fell fallen ?_ ?_
      · rw [partly, offset]
        exact Nat.le_add_right _ _
      · rw [partly, offset]
        exact Nat.add_le_add_left least _
    · obtain ⟨bytes, further, more⟩ := moved fallen
      have done : (serveOrReport fd sp j).value = .ok .done := by
        by_contra other
        exact fallen ⟨other, ends⟩
      have ended := (not_congr more).mp ends
      rw [bytes, further, UInt64.lt_iff_toNat_lt, reach] at ended
      exact .ended (done.trans (congrArg _ (finished.mpr ended).symm)) (further ▸ reach) (.none _)
  | @more j rounds os preempted _ ih =>
    have le := UInt64.le_iff_toNat_le.mp within
    have top := j.req.bytes.toNat_lt
    obtain ⟨-, moved⟩ : wp (serveOrReport fd sp) j _ := serveOrReport_moves hop
    obtain ⟨bytes, further, more⟩ := moved fun fallen => fallen.2 preempted
    have reach := moved_toNat within (UInt64.le_refl (takeOf sp j.req))
    have same := congrArg Request.op (serveOrReport_apart fd sp j).fixed
    have unfinished := more.mp preempted
    obtain ⟨later, rest, tracked⟩ := ih (same.trans hop) (UInt64.le_of_lt unfinished)
    rw [bytes, further, UInt64.lt_iff_toNat_lt, reach, ← takeFrom_eq within] at unfinished
    simp only [bytes, further, reach, ← takeFrom_eq within] at rest
    refine ⟨_, checkedPuts_more le top unfinished rest, .ended preempted ?_ tracked⟩
    rw [further, reach, takeFrom_eq within]

end Put

/-- No account of a slice leaves the 64-bit numbers, whatever the lines and the quantum, and the
requests keep the accounts that natural numbers would. -/
theorem slices_checked (fd : Int) (sp : SliceParams) :
    (∀ c j, FreshGet c j →
      (∀ fuel, ∃ L, checkedRounds sp c.length fuel ((lines newline c).map List.length) ⟨0, 0, 0⟩ = some L) ∧
      ∀ rounds, Resumed fd sp c j rounds →
        ∃ L, checkedRounds sp c.length rounds.length ((lines newline c).map List.length) ⟨0, 0, 0⟩ = some L ∧
          Accounted c j.req rounds L) ∧
    ∀ j, FreshPut j →
      (∀ fuel, ∃ L, checkedPuts sp j.req.bytes.toNat fuel 0 = some L) ∧
      ∀ rounds, Interleaved fd sp j rounds →
        ∃ L, checkedPuts sp j.req.bytes.toNat rounds.length 0 = some L ∧ Tracked j.req rounds L := by
  constructor
  · intro c j fresh
    have booked := fresh.booked
    have start : ledgerOf j.req = ⟨0, 0, 0⟩ := by
      simp [ledgerOf, fresh.byteOffset, fresh.forfeitedBytes, fresh.deficit]
    rw [← start]
    exact ⟨booked.checked sp, fun rounds run => run.accounted fresh.serving fresh.op booked⟩
  · intro j fresh
    have start : j.req.byteOffset.toNat = 0 := by
      rw [fresh.byteOffset]
      rfl
    have within : j.req.byteOffset ≤ j.req.bytes := by
      rw [fresh.byteOffset]
      exact UInt64.zero_le
    have total := @checkedPuts_total sp _ _ (UInt64.le_iff_toNat_le.mp within) j.req.bytes.toNat_lt
    rw [start] at total
    refine ⟨total, fun rounds run => ?_⟩
    rw [← start]
    exact run.tracked fresh.op within

/-- A GET that is served in two rounds, and a PUT in three. -/
theorem slices_checked_single :
    (∃ o o' L, o = serveOrReport 7 { policy := .drr, quantum := 2 } (singleGet [102] [97, 98, 10, 99] shortCounts) ∧
      o' = serveOrReport 7 { policy := .drr, quantum := 2 } o.state ∧
      checkedRounds { policy := .drr, quantum := 2 } 4 2 [3, 1] ⟨0, 0, 0⟩ = some L ∧
      Accounted [97, 98, 10, 99] (singleGet [102] [97, 98, 10, 99] shortCounts).req [o, o'] L) ∧
    ∃ rounds L, rounds = callRounds (serveOrReport 7 { policy := .drr, quantum := 2 }) 6 (slowPut 5) ∧
      rounds.length = 3 ∧ checkedPuts { policy := .drr, quantum := 2 } 5 3 0 = some L ∧ Tracked (slowPut 5).req rounds L := by
  obtain ⟨gets, puts⟩ := slices_checked 7 { policy := .drr, quantum := 2 }
  constructor
  · have resumed : Resumed 7 { policy := .drr, quantum := 2 } [97, 98, 10, 99]
        (singleGet [102] [97, 98, 10, 99] shortCounts) _ :=
      .more (serveOrReport 7 { policy := .drr, quantum := 2 } (singleGet [102] [97, 98, 10, 99] shortCounts)).state.os
        (by decide +kernel) (by decide +kernel) (.last (by decide +kernel))
    obtain ⟨L, checked, accounted⟩ := (gets _ _ (singleGet_fresh [102] shortCounts (by decide))).2 _ resumed
    exact ⟨_, _, L, rfl, rfl, checked, accounted⟩
  · obtain ⟨L, checked, tracked⟩ := (puts _ (slowPut_fresh 5)).2 _ (callRounds_interleaved 7 _ 6 (slowPut 5))
    have three : (callRounds (serveOrReport 7 { policy := .drr, quantum := 2 }) 6 (slowPut 5)).length = 3 := by
      decide +kernel
    exact ⟨_, L, rfl, three, three ▸ checked, tracked⟩

example : checkedAllowance { policy := .drr, quantum := 0xffffffffffffffff } 5 = some (2 ^ 64 - 1) := by decide

end LinkScheduling
