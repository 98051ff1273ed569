import LinkScheduling.Frames

/-! The line access of `slice.cpp` whatever the calls do: `line_length_at` finds the end of a line
in the sized region and reads nothing beyond it, and `append_range` and `stream_range` move a
range of the file whole, or report that a call has failed. -/

namespace LinkScheduling
open Effect

def Event.reads (file : Int) (low high : Nat) : Event → Prop
  | .pread fd pos want => fd = file ∧ low ≤ pos ∧ pos + want ≤ high
  | _ => True

section LineAccess
variable {os : Os} {file : Int} {c : Bytes}

theorem pread_delivers {want pos low high : Nat} (content : os.files.contentOf file = some c)
    (size : c.length ≤ offLimit) (pos_lt : pos < c.length) (want_pos : 0 < want) (low_le : low ≤ pos)
    (le_high : pos + want ≤ high) : wp (pread file want pos) os fun v os' l =>
      ∃ d, v = .ok d ∧ d <+: (c.drop pos).take want ∧ (d ≠ [] ↔ Clean l) ∧ os'.files = os.files ∧
        Still os os' ∧ ∀ e ∈ l, e.reads file low high := by
  rw [pread, wp_call]
  cases os.verdict with
  | fail e => exact ⟨[], rfl, List.nil_prefix, by simp [Event.faulty], rfl, ⟨rfl, rfl, rfl⟩, by simp [Event.reads]⟩
  | grant most =>
    have rest : 0 < ((c.drop pos).take want).length := by
      rw [List.length_take, List.length_drop]
      omega
    have some_ : ((c.drop pos).take want).take (amount ((c.drop pos).take want).length most) ≠ [] := by
      rw [← List.length_pos_iff, List.length_take]
      exact Nat.lt_min.mpr ⟨amount_pos rest most, rest⟩
    simp only [wp, Os.answered_files, content]
    rw [if_pos (by omega)]
    refine ⟨_, rfl, List.take_prefix _ _, ⟨fun _ => by simp [Event.faulty], fun _ => some_⟩, rfl, ⟨rfl, rfl, rfl⟩, ?_⟩
    exact List.forall_mem_singleton.mpr ⟨rfl, low_le, le_high⟩

theorem lineLengthAt_within {offset size : UInt64} (content : os.files.contentOf file = some c)
    (limit : c.length ≤ offLimit) (size_le : size.toNat ≤ c.length) (lt : offset < size) :
    wp (lineLengthAt file offset size) os fun v _ l =>
      (∃ len, v = .ok len) ∧ ∀ e ∈ l, e.reads file offset.toNat size.toNat := by
  have top := size.toNat_lt
  rw [UInt64.lt_iff_toNat_lt] at lt
  refine wp_loop
    (fun pos s l => offset.toNat ≤ pos.toNat ∧ pos.toNat ≤ size.toNat ∧ s.files = os.files ∧
      ∀ e ∈ l, e.reads file offset.toNat size.toNat)
    (fun pos _ => size.toNat - pos.toNat) ?_ _ offset os ⟨le_refl _, by omega, rfl, by simp⟩ ?_
  · rintro pos s l ⟨low, high, files, within⟩
    unfold lineTurn
    by_cases before : pos < size
    · rw [if_pos before]
      have window : (min 16384 (size - pos)).toNat = min 16384 (size.toNat - pos.toNat) := by
        rw [toNat_min, UInt64.toNat_sub_of_le _ _ (UInt64.le_of_lt before)]
        rfl
      rw [UInt64.lt_iff_toNat_lt] at before
      rw [window]
      refine wp_seq (pread_delivers (by rw [files]; exact content) limit (by omega) (by omega) low
        (show pos.toNat + min 16384 (size.toNat - pos.toNat) ≤ size.toNat by omega)) ?_ ?_
      · rintro d s' l' ⟨d', hd, part, -, files', -, within'⟩
        cases hd
        have bound := part.length_le
        rw [List.length_take] at bound
        have all := List.forall_mem_append.mpr ⟨within, within'⟩
        by_cases empty : d = []
        · rw [if_pos empty, wp_pure, List.append_nil]
          exact ⟨⟨_, rfl⟩, all⟩
        · rw [if_neg empty]
          have some_ := List.length_pos_iff.mpr empty
          by_cases found : newline ∈ d
          · rw [if_pos found, wp_pure, List.append_nil]
            exact ⟨⟨_, rfl⟩, all⟩
          · have advance : (pos + UInt64.ofNat d.length).toNat = pos.toNat + d.length := by
              simp only [UInt64.toNat_add, UInt64.toNat_ofNat']
              omega
            rw [if_neg found, wp_pure, List.append_nil]
            exact ⟨⟨by omega, by omega, files'.trans files, all⟩, by omega⟩
      · rintro e s' l' ⟨d, hd, -⟩
        cases hd
    · rw [if_neg before, wp_pure, List.append_nil]
      exact ⟨⟨_, rfl⟩, within⟩
  · rw [UInt64.toNat_sub_of_le _ _ (UInt64.le_iff_toNat_le.mpr (by omega))]
    omega

theorem lineLengthAt_spec {offset size : UInt64} (content : os.files.contentOf file = some c)
    (limit : c.length ≤ offLimit) (size_le : size.toNat ≤ c.length) (lt : offset < size) :
    wp (lineLengthAt file offset size) os fun v _ l => ∃ len, v = .ok len ∧
      (Clean l → len.toNat = headLength ((c.take size.toNat).drop offset.toNat)) ∧
        (¬ Clean l → len = 0) ∧ ∀ e ∈ l, e.reads file offset.toNat size.toNat := by
  refine wp_mono (wp_and (wp_and (lineLengthAt_within content limit size_le lt)
    (lineLengthAt_succeeds 0 content size_le limit lt)) ((lineLengthAt_reports file offset size).wp os)) ?_
  rintro v s l ⟨⟨⟨⟨len, rfl⟩, within⟩, found⟩, reports⟩
  refine ⟨len, rfl, fun clean => ?_, fun unclean => ?_, within⟩
  · obtain ⟨len', same, value, -⟩ := found clean
    cases same
    exact value
  · by_contra nonzero
    exact unclean (reports len rfl nonzero)

variable {offset len : UInt64}

theorem pread_part (done : UInt64) {want : Nat} (content : os.files.contentOf file = some c)
    (limit : c.length ≤ offLimit) (inside : offset.toNat + len.toNat ≤ c.length) (want_pos : 0 < want)
    (want_le : done.toNat + want ≤ len.toNat) : wp (pread file want (offset + done).toNat) os fun v os' l =>
      ∃ d, v = .ok d ∧ d <+: ((c.drop (offset.toNat + done.toNat)).take want) ∧ (d ≠ [] ↔ Clean l) ∧
        os'.files = os.files ∧ Still os os' ∧
          ∀ e ∈ l, e.reads file offset.toNat (offset.toNat + len.toNat) := by
  have position : (offset + done).toNat = offset.toNat + done.toNat := by
    have small : offLimit < 2 ^ 64 := by decide
    rw [UInt64.toNat_add]
    omega
  rw [position]
  exact pread_delivers content limit (by omega) want_pos (by omega) (by omega)

theorem take_continues {done want : Nat} {d : Bytes} (part : d <+: (c.drop (offset.toNat + done)).take want)
    (want_le : done + want ≤ len.toNat) :
    ((c.drop offset.toNat).take len.toNat).take done ++ d =
      ((c.drop offset.toNat).take len.toNat).take (done + d.length) := by
  have bound := part.length_le
  rw [List.length_take] at bound
  rw [List.take_add, List.append_cancel_left_eq, List.drop_take, List.drop_drop, List.take_take,
    Nat.min_eq_left (by omega)]
  rw [List.prefix_iff_eq_take, List.take_take, Nat.min_eq_left (by omega)] at part
  exact part

theorem alloc_logs (os : Os) : wp alloc os fun v os' l => os'.files = os.files ∧ Still os os' ∧
    (v = .ok () ∧ l = [] ∨ v = .error .thrown ∧ l = [.allocFailed]) := by
  rw [alloc, wp_call]
  cases os.verdict with
  | fail e => exact ⟨rfl, ⟨rfl, rfl, rfl⟩, .inr ⟨rfl, rfl⟩⟩
  | grant most => exact ⟨rfl, ⟨rfl, rfl, rfl⟩, .inl ⟨rfl, rfl⟩⟩

theorem range_length (inside : offset.toNat + len.toNat ≤ c.length) :
    ((c.drop offset.toNat).take len.toNat).length = len.toNat := by
  rw [List.length_take, List.length_drop]
  omega

theorem appendRange_spec (out : Bytes) (content : os.files.contentOf file = some c) (limit : c.length ≤ offLimit)
    (inside : offset.toNat + len.toNat ≤ c.length) :
    wp (appendRange file offset len out) os fun v _ l =>
      (Clean l → v = .ok (true, out ++ (c.drop offset.toNat).take len.toNat)) ∧
        (¬ Clean l → v = .ok (false, out) ∨ v = .error .thrown ∧ l = [.allocFailed]) ∧
          ∀ e ∈ l, e.reads file offset.toNat (offset.toNat + len.toNat) := by
  have top := len.toNat_lt
  refine wp_seq (alloc_logs os) ?_ ?_
  · rintro ⟨⟩ os₁ l₁ ⟨files₁, -, ⟨-, rfl⟩ | ⟨h, -⟩⟩
    · have reads : wp (Prog.loop .spent (appendTurn file offset len) (len.toNat + 1) []) os₁ fun v _ l =>
          (v = .ok (some ((c.drop offset.toNat).take len.toNat)) ∧ Clean l ∨ v = .ok none ∧ ¬ Clean l) ∧
            ∀ e ∈ l, e.reads file offset.toNat (offset.toNat + len.toNat) := by
        refine wp_loop
          (fun got s l => got.length ≤ len.toNat ∧
            got = ((c.drop offset.toNat).take len.toNat).take got.length ∧ s.files = os.files ∧ Clean l ∧
              ∀ e ∈ l, e.reads file offset.toNat (offset.toNat + len.toNat))
          (fun got _ => len.toNat - got.length) ?_ _ [] os₁ ⟨by simp, rfl, files₁, clean_nil, by simp⟩ (by simp)
        rintro got s l ⟨le, moved, files, clean, within⟩
        have done : (UInt64.ofNat got.length).toNat = got.length := by
          rw [UInt64.toNat_ofNat']
          omega
        unfold appendTurn
        by_cases more : UInt64.ofNat got.length < len
        · rw [if_pos more]
          have remaining := UInt64.toNat_sub_of_le _ _ (UInt64.le_of_lt more)
          rw [UInt64.lt_iff_toNat_lt, done] at more
          rw [remaining, done]
          refine wp_seq (pread_part (UInt64.ofNat got.length) (by rw [files]; exact content) limit inside
            (show 0 < len.toNat - got.length by omega) (by omega)) ?_ ?_
          · rintro d s' l' ⟨d', hd, part, some_, files', -, within'⟩
            cases hd
            rw [done] at part
            have bound := part.length_le
            rw [List.length_take] at bound
            have all := List.forall_mem_append.mpr ⟨within, within'⟩
            by_cases empty : d = []
            · rw [if_pos empty, wp_pure, List.append_nil]
              have unclean : ¬ Clean (l ++ l') := fun h => some_.mpr ((clean_append _ _).mp h).2 empty
              exact ⟨.inr ⟨rfl, unclean⟩, all⟩
            · have positive := List.length_pos_iff.mpr empty
              have continued := @take_continues c offset len got.length (len.toNat - got.length) d part (by omega)
              rw [← moved, ← List.length_append] at continued
              rw [if_neg empty, wp_pure, List.append_nil]
              refine ⟨⟨?_, continued, files'.trans files, (clean_append _ _).mpr ⟨clean, some_.mp empty⟩, all⟩, ?_⟩
              · rw [List.length_append]
                omega
              · rw [List.length_append]
                omega
          · rintro e s' l' ⟨d, hd, -⟩
            cases hd
        · rw [if_neg more, wp_pure, List.append_nil]
          rw [UInt64.lt_iff_toNat_lt, done] at more
          rw [List.take_of_length_le (by rw [range_length inside]; omega)] at moved
          exact ⟨.inl ⟨by rw [moved], clean⟩, within⟩
      refine wp_seq reads ?_ ?_
      · rintro got os₂ l₂ ⟨⟨h, clean⟩ | ⟨h, unclean⟩, within⟩
        · cases h
          rw [wp_pure, List.append_nil]
          exact ⟨fun _ => rfl, fun h => absurd clean h, within⟩
        · cases h
          rw [wp_pure, List.append_nil]
          exact ⟨fun h => absurd h unclean, fun _ => .inl rfl, within⟩
      · rintro e os₂ l₂ ⟨⟨h, -⟩ | ⟨h, -⟩, -⟩ <;> cases h
    · cases h
  · rintro e os₁ l₁ ⟨-, -, ⟨h, -⟩ | ⟨h, rfl⟩⟩
    · cases h
    · refine ⟨fun clean => ?_, fun _ => .inr ⟨by rw [Except.error.inj h], rfl⟩, List.forall_mem_singleton.mpr trivial⟩
      simp [Event.faulty] at clean

theorem sendAll_reads (sock : Int) (data : Bytes) {low high : Nat} :
    Within (fun _ => True) (fun e => e.reads file low high) (sendAll sock data) := by
  refine .bind (.emit trivial) fun _ => .bind .get fun _ => .loop (fun sent => ?_) _ _
  refine .ite (.bind (fun os _ => ⟨trivial, ?_⟩) fun r => ?_) (.pure _)
  · rw [send, call]
    cases os.verdict with
    | fail e => exact List.forall_mem_singleton.mpr trivial
    | grant most => exact List.forall_mem_singleton.mpr trivial
  · split <;> exact .pure _

theorem streamRange_spec (sock : Int) (content : os.files.contentOf file = some c) (limit : c.length ≤ offLimit)
    (inside : offset.toNat + len.toNat ≤ c.length) :
    wp (streamRange file sock offset len) os fun v os' l =>
      (∃ out, out <+: (c.drop offset.toNat).take len.toNat ∧ Talks sock [] out os os' ∧
        (Clean l → v = .ok true ∧ out = (c.drop offset.toNat).take len.toNat)) ∧
        (¬ Clean l → v = .ok false ∨ v = .error .thrown ∧ l = [.allocFailed]) ∧
          ∀ e ∈ l, e.reads file offset.toNat (offset.toNat + len.toNat) := by
  have top := len.toNat_lt
  refine wp_seq (alloc_logs os) ?_ ?_
  · rintro ⟨⟩ os₁ l₁ ⟨files₁, still, ⟨-, rfl⟩ | ⟨h, -⟩⟩
    · refine wp_loop
        (fun done s l => done.toNat ≤ len.toNat ∧
          Talks sock [] (((c.drop offset.toNat).take len.toNat).take done.toNat) os s ∧ s.files = os.files ∧ Clean l ∧
            ∀ e ∈ l, e.reads file offset.toNat (offset.toNat + len.toNat))
        (fun done _ => len.toNat - done.toNat) ?_ _ 0 os₁
        ⟨Nat.zero_le _, by simpa using still.talks sock, files₁, clean_nil, by simp⟩ (by simp)
      rintro done s l ⟨le, talks, files, clean, within⟩
      unfold streamTurn
      by_cases more : done < len
      · rw [if_pos more]
        have window : (min (min len kChunk) (len - done)).toNat =
            min (min len.toNat 65536) (len.toNat - done.toNat) := by
          rw [toNat_min, toNat_min, UInt64.toNat_sub_of_le _ _ (UInt64.le_of_lt more)]
          rfl
        rw [UInt64.lt_iff_toNat_lt] at more
        rw [window]
        refine wp_seq (pread_part done (by rw [files]; exact content) limit inside
          (show 0 < min (min len.toNat 65536) (len.toNat - done.toNat) by omega) (by omega)) ?_ ?_
        · rintro d s' l' ⟨d', hd, part, some_, files', still', within'⟩
          cases hd
          have bound := part.length_le
          rw [List.length_take] at bound
          have all := List.forall_mem_append.mpr ⟨within, within'⟩
          have talks' := talks.then_quiet (still'.talks sock)
          have continued := @take_continues c offset len done.toNat _ d part (by omega)
          by_cases empty : d = []
          · rw [if_pos empty, wp_pure, List.append_nil]
            have unclean : ¬ Clean (l ++ l') := fun h => some_.mpr ((clean_append _ _).mp h).2 empty
            exact ⟨⟨_, List.take_prefix _ _, talks', fun h => absurd h unclean⟩, fun _ => .inl rfl, all⟩
          · have positive := List.length_pos_iff.mpr empty
            rw [if_neg empty]
            have reads : wp (sendAll sock d) s' fun _ _ l =>
                ∀ e ∈ l, e.reads file offset.toNat (offset.toNat + len.toNat) :=
              (sendAll_reads sock d s' trivial).2
            refine wp_seq (wp_and (sendAll_spec sock d s') reads) ?_ ?_
            · rintro ok s'' l'' ⟨⟨ok', hok, sentAll⟩, within''⟩
              cases hok
              obtain ⟨out, prefix_, whole, out_talks⟩ := sentAll.sent
              have sent := talks'.trans out_talks
              have all' := List.forall_mem_append.mpr ⟨all, within''⟩
              rw [List.append_assoc] at all'
              cases ok with
              | true =>
                have advance : (done + UInt64.ofNat d.length).toNat = done.toNat + d.length := by
                  simp only [UInt64.toNat_add, UInt64.toNat_ofNat']
                  omega
                have clean' := (clean_append _ _).mpr ⟨some_.mp empty, sentAll.clean.mp rfl⟩
                rw [whole rfl, continued, List.append_nil] at sent
                rw [if_pos rfl, wp_pure, List.append_nil]
                refine ⟨⟨by omega, ?_, sentAll.files.trans (files'.trans files),
                  (clean_append _ _).mpr ⟨clean, clean'⟩, all'⟩, by omega⟩
                rw [advance]
                exact sent
              | false =>
                have unclean : ¬ Clean (l ++ (l' ++ l'')) := by
                  intro h
                  have clean'' := ((clean_append _ _).mp ((clean_append _ _).mp h).2).2
                  exact absurd (sentAll.clean.mpr clean'') (by simp)
                rw [if_neg (by simp), wp_pure, List.append_nil]
                refine ⟨⟨_, ?_, sent, fun h => absurd h unclean⟩, fun _ => .inl rfl, all'⟩
                refine List.IsPrefix.trans ?_ (List.take_prefix (done.toNat + d.length) _)
                rw [← continued]
                exact (List.prefix_append_right_inj _).mpr prefix_
            · rintro e s'' l'' ⟨⟨ok, h, -⟩, -⟩
              cases h
        · rintro e s' l' ⟨d, hd, -⟩
          cases hd
      · rw [if_neg more, wp_pure, List.append_nil]
        rw [UInt64.lt_iff_toNat_lt] at more
        rw [List.take_of_length_le (by rw [range_length inside]; omega)] at talks
        exact ⟨⟨_, List.prefix_refl _, talks, fun _ => ⟨rfl, rfl⟩⟩, fun h => absurd clean h, within⟩
    · cases h
  · rintro e os₁ l₁ ⟨-, still, ⟨h, -⟩ | ⟨h, rfl⟩⟩
    · cases h
    · refine ⟨⟨[], List.nil_prefix, still.talks sock, fun clean => ?_⟩,
        fun _ => .inr ⟨by rw [Except.error.inj h], rfl⟩, List.forall_mem_singleton.mpr trivial⟩
      simp [Event.faulty] at clean

/-- Line access is what it is specified to be, however the counts of the calls are cut, and says
so when a call has failed. -/
theorem lineAccess_spec {size : UInt64} (content : os.files.contentOf file = some c) (limit : c.length ≤ offLimit)
    (size_le : size.toNat ≤ c.length) (lt : offset < size) :
    (wp (lineLengthAt file offset size) os fun v _ l => ∃ len, v = .ok len ∧
      (Clean l → len.toNat = headLength ((c.take size.toNat).drop offset.toNat)) ∧
      (¬ Clean l → len = 0) ∧ ∀ e ∈ l, e.reads file offset.toNat size.toNat) ∧
    ∀ len : UInt64, offset.toNat + len.toNat ≤ c.length →
      (∀ out, wp (appendRange file offset len out) os fun v _ l =>
        (Clean l → v = .ok (true, out ++ (c.drop offset.toNat).take len.toNat)) ∧
        (¬ Clean l → v = .ok (false, out) ∨ v = .error .thrown ∧ l = [.allocFailed]) ∧
        ∀ e ∈ l, e.reads file offset.toNat (offset.toNat + len.toNat)) ∧
      ∀ sock, wp (streamRange file sock offset len) os fun v os' l =>
        (∃ out, out <+: (c.drop offset.toNat).take len.toNat ∧ Talks sock [] out os os' ∧
          (Clean l → v = .ok true ∧ out = (c.drop offset.toNat).take len.toNat)) ∧
        (¬ Clean l → v = .ok false ∨ v = .error .thrown ∧ l = [.allocFailed]) ∧
        ∀ e ∈ l, e.reads file offset.toNat (offset.toNat + len.toNat) :=
  ⟨lineLengthAt_spec content limit size_le lt, fun _ inside =>
    ⟨fun out => appendRange_spec out content limit inside, fun sock => streamRange_spec sock content limit inside⟩⟩

/-- A file that has grown since its size was taken, in short reads. -/
theorem lineAccess_spec_grown : ∃ os : Os, os = (singleGet [102] [97, 98, 10, 99] shortCounts).os ∧
    (∃ len, (lineLengthAt 0 0 2 os).value = .ok len ∧ len.toNat = 2 ∧ ∀ e ∈ (lineLengthAt 0 0 2 os).log, e.reads 0 0 2) ∧
    (appendRange 0 0 3 [120] os).value = .ok (true, [120, 97, 98, 10]) ∧
    (streamRange 0 7 0 3 os).value = .ok true ∧ (streamRange 0 7 0 3 os).state.sent 7 = [97, 98, 10] := by
  obtain ⟨⟨len, value, found, -, reads⟩, ranges⟩ :=
    lineAccess_spec (singleGet_fresh [102] (c := [97, 98, 10, 99]) shortCounts (by decide)).content (by decide)
      (by decide : (2 : UInt64).toNat ≤ 4) (by decide : (0 : UInt64) < 2)
  obtain ⟨append, stream⟩ := ranges 3 (by decide)
  obtain ⟨⟨out, -, talks, whole⟩, -⟩ := stream 7
  obtain ⟨streamed, all⟩ := whole (by decide +kernel)
  refine ⟨_, rfl, ⟨len, value, found (by decide +kernel), reads⟩, (append [120]).1 (by decide +kernel), streamed, ?_⟩
  refine talks.sent_self.trans ?_
  rw [all]
  rfl

end LineAccess

end LinkScheduling
