import LinkScheduling.Slice
import LinkScheduling.Lines

/-! What the calls and the loops around them do when no call fails: reads deliver the bytes
of the file, `send_all` puts the whole buffer on the socket, and the line access of
`slice.cpp` finds and moves whole lines, however the counts of the calls are cut. -/

namespace LinkScheduling
open Effect

def Os.Obliging (os : Os) : Prop := ∀ r ∈ os.script, ∀ e, r.verdict ≠ .fail e

theorem Os.Obliging.verdict {os : Os} (h : os.Obliging) (e : Errno) : os.verdict ≠ .fail e := by
  unfold Os.verdict
  cases hs : os.script with
  | nil => simp
  | cons r rest => simpa using h r (by simp [hs]) e

theorem Os.Obliging.answered {os : Os} (h : os.Obliging) : os.answered.Obliging :=
  fun r hr => h r (List.mem_of_mem_tail hr)

theorem call_tame {α : Type} {f : Verdict → Os → Outcome Fault Os Event α}
    (h : ∀ most os, (f (.grant most) os).state.script = os.script ∧ Clean (f (.grant most) os).log) :
    Tame Os.Obliging (call f) := by
  intro os hos
  cases hv : os.verdict with
  | fail e => exact absurd hv (hos.verdict e)
  | grant most =>
    obtain ⟨hscript, hclean⟩ := h most os.answered
    unfold Os.Obliging call
    rw [hv, hscript]
    exact ⟨hos.answered, hclean⟩

theorem pread_tame (fd : Int) (want pos : Nat) : Tame Os.Obliging (pread fd want pos) := by
  refine call_tame fun most os => ?_
  cases os.files.contentOf fd with
  | none => exact ⟨rfl, by simp [Event.faulty]⟩
  | some c =>
    simp only
    split <;> exact ⟨rfl, by simp [Event.faulty]⟩

theorem send_tame (fd : Int) (data : Bytes) : Tame Os.Obliging (send fd data) :=
  call_tame fun _ _ => ⟨rfl, by simp [Event.faulty]⟩

theorem alloc_tame : Tame Os.Obliging alloc := call_tame fun _ _ => ⟨rfl, clean_nil⟩

theorem sendAll_tame (fd : Int) (data : Bytes) : Tame Os.Obliging (sendAll fd data) := by
  refine .bind (.emit (by simp [Event.faulty])) fun _ => .bind .get fun _ => .loop (fun sent => ?_) _ _
  refine .ite (.bind (send_tame fd _) fun r => ?_) (.pure _)
  split <;> exact .pure _

theorem flush_tame (b : Batch) (sock : Int) : Tame Os.Obliging (b.flush sock) :=
  .ite (.pure _) (sendAll_tame sock b.data)

theorem lineLengthAt_tame (fd : Int) (offset fileSize : UInt64) :
    Tame Os.Obliging (lineLengthAt fd offset fileSize) := by
  refine .loop (fun pos => ?_) _ _
  exact .ite (.bind (pread_tame fd _ _) fun _ => .ite (.pure _) (.ite (.pure _) (.pure _))) (.pure _)

theorem appendRange_tame (fd : Int) (offset len : UInt64) (out : Bytes) :
    Tame Os.Obliging (appendRange fd offset len out) := by
  refine .bind alloc_tame fun _ => .bind (.loop (fun got => ?_) _ _) fun r => ?_
  · exact .ite (.bind (pread_tame fd _ _) fun _ => .ite (.pure _) (.pure _)) (.pure _)
  · split <;> exact .pure _

theorem streamRange_tame (fd sock : Int) (offset len : UInt64) :
    Tame Os.Obliging (streamRange fd sock offset len) := by
  refine .bind alloc_tame fun _ => .loop (fun done => ?_) _ _
  exact .ite (.bind (pread_tame fd _ _) fun _ => .ite (.pure _)
    (.bind (sendAll_tame sock _) fun _ => .ite (.pure _) (.pure _))) (.pure _)

/-- `b` is `a` after `data` went out on the socket `fd`, the script and the clock aside. -/
structure Sends (fd : Int) (data : Bytes) (a b : Os) : Prop where
  files : b.files = a.files
  peer : b.peer = a.peer
  recvd : b.recvd = a.recvd
  sent : b.sent = Function.update a.sent fd (a.sent fd ++ data)

theorem Sends.refl (fd : Int) (a : Os) : Sends fd [] a a := ⟨rfl, rfl, rfl, by simp⟩

theorem Sends.answered (fd : Int) (a : Os) : Sends fd [] a a.answered := ⟨rfl, rfl, rfl, by simp⟩

theorem Sends.trans {fd : Int} {d e : Bytes} {a b c : Os} (h : Sends fd d a b)
    (h' : Sends fd e b c) : Sends fd (d ++ e) a c where
  files := h'.files.trans h.files
  peer := h'.peer.trans h.peer
  recvd := h'.recvd.trans h.recvd
  sent := by rw [h'.sent, h.sent]; simp

theorem Sends.sent_self {fd : Int} {data : Bytes} {a b : Os} (h : Sends fd data a b) :
    b.sent fd = a.sent fd ++ data := by rw [h.sent]; simp

theorem Sends.sent_other {fd fd' : Int} {data : Bytes} {a b : Os} (h : Sends fd data a b)
    (hne : fd' ≠ fd) : b.sent fd' = a.sent fd' := by rw [h.sent]; simp [hne]

theorem Sends.contentOf {fd fd' : Int} {data : Bytes} {a b : Os} (h : Sends fd data a b) :
    b.files.contentOf fd' = a.files.contentOf fd' := by rw [h.files]

def handedOf (l : List Event) : List Bytes := l.filterMap fun
  | .handed _ data => some data
  | _ => none

/-- The A14 lines logged, in order: request, file name, line length and quantum. -/
def a14Of (l : List Event) : List (Nat × Bytes × UInt64 × UInt64) := l.filterMap fun
  | .a14 id name len quantum => some (id, name, len, quantum)
  | _ => none

structure Shows (l : List Event) (hs : List Bytes) (as : List (Nat × Bytes × UInt64 × UInt64)) :
    Prop where
  handed : handedOf l = hs
  a14 : a14Of l = as

theorem Shows.nil : Shows [] [] [] := ⟨rfl, rfl⟩

theorem Shows.buffer (fd : Int) (data : Bytes) : Shows [.handed fd data] [data] [] := ⟨rfl, rfl⟩

theorem Shows.append {l l' : List Event} {hs hs' : List Bytes}
    {as as' : List (Nat × Bytes × UInt64 × UInt64)} (h : Shows l hs as) (h' : Shows l' hs' as') :
    Shows (l ++ l') (hs ++ hs') (as ++ as') where
  handed := by rw [handedOf, List.filterMap_append, ← handedOf, ← handedOf, h.handed, h'.handed]
  a14 := by rw [a14Of, List.filterMap_append, ← a14Of, ← a14Of, h.a14, h'.a14]

theorem call_succeeds {α : Type} {f : Verdict → Os → Outcome Fault Os Event α} {os : Os}
    {Q : α → Os → List Event → Prop}
    (h : ∀ v, os.verdict = v → Succeeds (f v : Sys α) os.answered Q) :
    Succeeds (call f) os Q := h _ rfl

section Calls
variable {os : Os} {fd : Int}

theorem alloc_succeeds (sock : Int) : Succeeds alloc os fun _ os' l => Sends sock [] os os' ∧ Shows l [] [] := by
  refine call_succeeds fun v _ clean => ?_
  cases v with
  | fail e => simp [Event.faulty] at clean
  | grant most => exact ⟨(), rfl, Sends.answered sock os, Shows.nil⟩

theorem pread_succeeds (sock : Int) {c : Bytes} {want pos : Nat} (hc : os.files.contentOf fd = some c)
    (hpos : pos < c.length) (hoff : c.length ≤ offLimit) (hwant : 0 < want) :
    Succeeds (pread fd want pos) os fun d os' l =>
      d ≠ [] ∧ d <+: (c.drop pos).take want ∧ Sends sock [] os os' ∧ Shows l [] [] := by
  have hc' : os.answered.files.contentOf fd = some c := hc
  have hlt : pos < offLimit := by omega
  have rest : 0 < ((c.drop pos).take want).length := by
    rw [List.length_take, List.length_drop]
    omega
  refine call_succeeds fun v _ clean => ?_
  cases v with
  | fail e => simp [Event.faulty] at clean
  | grant most =>
    simp only [hc', if_pos hlt]
    refine ⟨_, rfl, ?_, List.take_prefix _ _, Sends.answered sock os, rfl, rfl⟩
    rw [← List.length_pos_iff, List.length_take]
    exact Nat.lt_min.mpr ⟨amount_pos rest most, rest⟩

theorem send_succeeds {data : Bytes} (hdata : data ≠ []) :
    Succeeds (send fd data) os fun r os' l => Shows l [] [] ∧
      ((r = .error .intr ∧ Sends fd [] os os' ∧ os'.script.length < os.script.length) ∨
        ∃ k, r = .ok (k + 1) ∧ k < data.length ∧ Sends fd (data.take (k + 1)) os os' ∧
          os'.script.length ≤ os.script.length) := by
  refine call_succeeds fun v hv clean => ?_
  cases v with
  | fail e =>
    have he : e = .intr := by simpa [Event.faulty] using clean
    subst he
    exact ⟨_, rfl, ⟨rfl, rfl⟩, Or.inl ⟨rfl, Sends.answered fd os, Os.answered_length_lt hv⟩⟩
  | grant most =>
    have moved := amount_pos (List.length_pos_iff.mpr hdata) most
    have bound := amount_le data.length most
    obtain ⟨k, hk⟩ := Nat.exists_eq_add_one_of_ne_zero (Nat.ne_of_gt moved)
    have length : (data.take (amount data.length most)).length = k + 1 := by
      rw [List.length_take]
      omega
    refine ⟨_, rfl, ⟨rfl, rfl⟩, Or.inr ⟨k, by rw [length], by omega, ?_, os.answered_length_le⟩⟩
    rw [← hk]
    exact ⟨rfl, rfl, rfl, rfl⟩

end Calls

theorem sendAll_succeeds (fd : Int) (data : Bytes) (os : Os) :
    Succeeds (sendAll fd data) os fun ok os' l =>
      ok = true ∧ Sends fd data os os' ∧ Shows l [data] [] := by
  refine .bind (.emit (.bind (.get ?_)))
  refine Succeeds.loop
    (fun sent s l => sent ≤ data.length ∧ Sends fd (data.take sent) os s ∧ Shows l [] [])
    (fun sent s => data.length - sent + s.script.length) ?_ _ 0 os ?_ (by omega)
  · rintro sent s l ⟨hle, hsends, hshows⟩
    unfold sendTurn
    split
    · rename_i hlt
      have rest : data.drop sent ≠ [] := by
        rw [← List.length_pos_iff, List.length_drop]
        omega
      refine .seq (send_succeeds rest) ?_
      rintro r s' l' ⟨hl', ⟨rfl, hs', hscript⟩ | ⟨k, rfl, hk, hs', hscript⟩⟩
      · exact .pure ⟨⟨hle, by simpa using hsends.trans hs', by simpa using hshows.append hl'⟩,
          by omega⟩
      · rw [List.length_drop] at hk
        have taken : data.take sent ++ (data.drop sent).take (k + 1) = data.take (sent + (k + 1)) :=
          List.take_add.symm
        exact .pure ⟨⟨by omega, taken ▸ hsends.trans hs', by simpa using hshows.append hl'⟩,
          by omega⟩
    · have hsent : data.take sent = data := List.take_of_length_le (by omega)
      rw [hsent] at hsends
      exact .pure ⟨rfl, hsends, by simpa using (Shows.buffer fd data).append hshows⟩
  · exact ⟨Nat.zero_le _, by simpa using Sends.refl fd os, Shows.nil⟩

theorem flush_succeeds (b : Batch) (sock : Int) (os : Os) :
    Succeeds (b.flush sock) os fun ok os' l => ok = true ∧ Sends sock b.data os os' ∧
      Shows l (if b.data = [] then [] else [b.data]) [] := by
  unfold Batch.flush
  split
  · rename_i h
    exact .pure ⟨rfl, by simpa [h] using Sends.refl sock os, Shows.nil⟩
  · exact sendAll_succeeds sock b.data os

theorem toNat_min (a b : UInt64) : (min a b).toNat = min a.toNat b.toNat := by
  change (if a ≤ b then a else b).toNat = _
  split <;> rename_i h <;> rw [UInt64.le_iff_toNat_le] at h <;> omega

def headLength (s : Bytes) : Nat := if newline ∈ s then s.idxOf newline + 1 else s.length

section LineAccess
variable {os : Os} {fd : Int} (sock : Int) {c : Bytes}

theorem pread_region {size pos want : Nat} (hc : os.files.contentOf fd = some c)
    (hsize : size ≤ c.length) (hoff : c.length ≤ offLimit) (hwant : 0 < want)
    (hregion : pos + want ≤ size) : Succeeds (pread fd want pos) os fun d os' l =>
      d ≠ [] ∧ d.length ≤ want ∧ (∃ t, (c.take size).drop pos = d ++ t) ∧
        Sends sock [] os os' ∧ Shows l [] [] := by
  refine (pread_succeeds sock hc (by omega) hoff hwant).mono ?_
  rintro d os' l ⟨hd, hprefix, hs, hl⟩
  have bound : d.length ≤ want := by
    have := hprefix.length_le
    rw [List.length_take] at this
    omega
  refine ⟨hd, bound, ?_, hs, hl⟩
  have wider : (c.drop pos).take want <+: (c.take size).drop pos := by
    rw [List.drop_take]
    exact List.take_prefix_take_left (by omega)
  obtain ⟨t, ht⟩ := hprefix.trans wider
  exact ⟨t, ht.symm⟩

theorem lineLengthAt_succeeds {offset fileSize : UInt64} (hc : os.files.contentOf fd = some c)
    (hsize : fileSize.toNat ≤ c.length) (hoff : c.length ≤ offLimit) (hlt : offset < fileSize) :
    Succeeds (lineLengthAt fd offset fileSize) os fun len os' l =>
      len.toNat = headLength ((c.take fileSize.toNat).drop offset.toNat) ∧
        Sends sock [] os os' ∧ Shows l [] [] := by
  rw [UInt64.lt_iff_toNat_lt] at hlt
  set region := (c.take fileSize.toNat).drop offset.toNat with hregion
  have length : region.length = fileSize.toNat - offset.toNat := by
    rw [hregion, List.length_drop, List.length_take]
    omega
  have top := fileSize.toNat_lt
  refine Succeeds.loop
    (fun pos s l => offset.toNat ≤ pos.toNat ∧ pos.toNat ≤ fileSize.toNat ∧
      newline ∉ region.take (pos.toNat - offset.toNat) ∧ Sends sock [] os s ∧ Shows l [] [])
    (fun pos _ => fileSize.toNat - pos.toNat) ?_ _ offset os ?_ ?_
  · rintro pos s l ⟨hlo, hhi, hnone, hs, hl⟩
    unfold lineTurn
    split
    · rename_i hpos
      have window : (min 16384 (fileSize - pos)).toNat = min 16384 (fileSize.toNat - pos.toNat) := by
        rw [toNat_min, UInt64.toNat_sub_of_le _ _ (UInt64.le_of_lt hpos)]
        rfl
      rw [UInt64.lt_iff_toNat_lt] at hpos
      rw [window]
      refine .seq (pread_region sock (hs.contentOf.trans hc) hsize hoff
        (by omega) (by omega)) ?_
      rintro d s' l' ⟨hd, hbound, ⟨t, ht⟩, hs', hl'⟩
      have dpos := List.length_pos_iff.mpr hd
      have later : region.drop (pos.toNat - offset.toNat) = d ++ t := by
        rw [hregion, List.drop_drop, Nat.add_sub_cancel' hlo, ht]
      have cut : region = region.take (pos.toNat - offset.toNat) ++ (d ++ t) := by
        rw [← later, List.take_append_drop]
      have before : (region.take (pos.toNat - offset.toNat)).length = pos.toNat - offset.toNat :=
        List.length_take_of_le (by omega)
      rw [if_neg hd]
      split
      · rename_i hnl
        have inside := List.idxOf_lt_length_of_mem hnl
        have found : headLength region = pos.toNat - offset.toNat + d.idxOf newline + 1 := by
          rw [headLength, cut, if_pos (by simp [hnl]), List.idxOf_append_of_notMem hnone,
            List.idxOf_append_of_mem hnl, before]
        refine .pure ⟨?_, by simpa using hs.trans hs', by simpa using hl.append hl'⟩
        rw [found]
        simp only [UInt64.toNat_add, UInt64.toNat_sub_of_le _ _ (UInt64.le_iff_toNat_le.mpr hlo),
          UInt64.toNat_ofNat', UInt64.toNat_one]
        omega
      · rename_i hnl
        have advance : (pos + UInt64.ofNat d.length).toNat = pos.toNat + d.length := by
          simp only [UInt64.toNat_add, UInt64.toNat_ofNat']
          omega
        refine .pure ⟨⟨by omega, by omega, ?_, by simpa using hs.trans hs',
          by simpa using hl.append hl'⟩, by omega⟩
        have grown : region.take ((pos + UInt64.ofNat d.length).toNat - offset.toNat) =
            region.take (pos.toNat - offset.toNat) ++ d := by
          rw [advance, Nat.sub_add_comm hlo, List.take_add]
          rw [later, List.take_left]
        rw [grown]
        simp [hnone, hnl]
    · rename_i hpos
      rw [UInt64.lt_iff_toNat_lt] at hpos
      have all : region.take (pos.toNat - offset.toNat) = region := List.take_of_length_le (by omega)
      rw [all] at hnone
      refine .pure ⟨?_, by simpa using hs, by simpa using hl⟩
      rw [headLength, if_neg hnone, length, UInt64.toNat_sub_of_le _ _
        (UInt64.le_iff_toNat_le.mpr (by omega))]
  · exact ⟨Nat.le_refl _, by omega, by simp, Sends.refl sock os, Shows.nil⟩
  · rw [UInt64.toNat_sub_of_le _ _ (UInt64.le_iff_toNat_le.mpr (by omega))]
    omega

theorem pread_range (done : UInt64) {offset len : UInt64} {want : Nat} (hc : os.files.contentOf fd = some c)
    (hoff : c.length ≤ offLimit) (hrange : offset.toNat + len.toNat ≤ c.length)
    (hwant : 0 < want) (hregion : done.toNat + want ≤ len.toNat) :
    Succeeds (pread fd want (offset + done).toNat) os fun d os' l =>
      d ≠ [] ∧ d.length ≤ want ∧
        (∃ t, ((c.drop offset.toNat).take len.toNat).drop done.toNat = d ++ t) ∧
          Sends sock [] os os' ∧ Shows l [] [] := by
  have position : (offset + done).toNat = offset.toNat + done.toNat := by
    have small : offLimit < 2 ^ 64 := by decide
    rw [UInt64.toNat_add]
    omega
  have region : (c.drop offset.toNat).take len.toNat =
      (c.take (offset.toNat + len.toNat)).drop offset.toNat := by
    rw [List.drop_take, Nat.add_sub_cancel_left]
  rw [position, region, List.drop_drop]
  exact pread_region sock hc hrange hoff hwant (by omega)

theorem appendRange_succeeds {offset len : UInt64} (out : Bytes)
    (hc : os.files.contentOf fd = some c) (hoff : c.length ≤ offLimit)
    (hrange : offset.toNat + len.toNat ≤ c.length) :
    Succeeds (appendRange fd offset len out) os fun r os' l =>
      r = (true, out ++ (c.drop offset.toNat).take len.toNat) ∧
        Sends sock [] os os' ∧ Shows l [] [] := by
  set range := (c.drop offset.toNat).take len.toNat with hrangeDef
  have length : range.length = len.toNat := by
    rw [hrangeDef, List.length_take, List.length_drop]
    omega
  have top := len.toNat_lt
  refine .seq (alloc_succeeds sock) ?_
  rintro ⟨⟩ os₁ l₁ ⟨hs₁, hl₁⟩
  have reads : Succeeds (Prog.loop .spent (appendTurn fd offset len) (len.toNat + 1) []) os₁
      fun r os' l => r = some range ∧ Sends sock [] os os' ∧ Shows l [] [] := by
    refine Succeeds.loop
      (fun got s l => got.length ≤ len.toNat ∧ got = range.take got.length ∧
        Sends sock [] os s ∧ Shows l [] [])
      (fun got _ => len.toNat - got.length) ?_ _ [] os₁ ⟨by simp, rfl, hs₁, Shows.nil⟩
      (by simp)
    rintro got s l ⟨hle, hgot, hs, hl⟩
    have done : (UInt64.ofNat got.length).toNat = got.length := by
      rw [UInt64.toNat_ofNat']
      omega
    unfold appendTurn
    split
    · rename_i hlt
      have remaining := UInt64.toNat_sub_of_le _ _ (UInt64.le_of_lt hlt)
      rw [UInt64.lt_iff_toNat_lt, done] at hlt
      rw [remaining, done]
      refine .seq (pread_range sock (UInt64.ofNat got.length)
        (hs.contentOf.trans hc) hoff hrange (by omega) (by omega)) ?_
      rintro d s' l' ⟨hd, hbound, ⟨t, ht⟩, hs', hl'⟩
      have dpos := List.length_pos_iff.mpr hd
      rw [done] at ht
      change range.drop got.length = d ++ t at ht
      rw [if_neg hd]
      refine .pure ⟨⟨?_, ?_, by simpa using hs.trans hs', by simpa using hl.append hl'⟩, ?_⟩
      · rw [List.length_append]
        omega
      · rw [List.length_append, List.take_add, ← hgot, ht, List.take_left]
      · rw [List.length_append]
        omega
    · rename_i hlt
      rw [UInt64.lt_iff_toNat_lt, done] at hlt
      rw [List.take_of_length_le (by omega)] at hgot
      exact .pure ⟨by rw [hgot], hs, by simpa using hl⟩
  refine .seq reads ?_
  rintro r os' l ⟨rfl, hs, hl⟩
  exact .pure ⟨rfl, hs, by simpa using hl₁.append hl⟩

theorem streamRange_succeeds {offset len : UInt64} (hc : os.files.contentOf fd = some c)
    (hoff : c.length ≤ offLimit) (hrange : offset.toNat + len.toNat ≤ c.length) :
    Succeeds (streamRange fd sock offset len) os fun ok os' l => ok = true ∧
      Sends sock ((c.drop offset.toNat).take len.toNat) os os' ∧
        ∃ pieces, pieces.flatten = (c.drop offset.toNat).take len.toNat ∧
          (∀ p ∈ pieces, p.length ≤ 65536) ∧ Shows l pieces [] := by
  set range := (c.drop offset.toNat).take len.toNat with hrangeDef
  have length : range.length = len.toNat := by
    rw [hrangeDef, List.length_take, List.length_drop]
    omega
  have top := len.toNat_lt
  refine .seq (alloc_succeeds sock) ?_
  rintro ⟨⟩ os₁ l₁ ⟨hs₁, hl₁⟩
  refine Succeeds.loop
    (fun done s l => done.toNat ≤ len.toNat ∧ Sends sock (range.take done.toNat) os s ∧
      ∃ pieces, pieces.flatten = range.take done.toNat ∧
        (∀ p ∈ pieces, p.length ≤ 65536) ∧ Shows l pieces [])
    (fun done _ => len.toNat - done.toNat) ?_ _ 0 os₁
    ⟨Nat.zero_le _, by simpa using hs₁, [], by simp, by simp, Shows.nil⟩ (by simp)
  rintro done s l ⟨hle, hs, pieces, hflat, hsmall, hl⟩
  unfold streamTurn
  split
  · rename_i hlt
    have window : (min (min len kChunk) (len - done)).toNat =
        min (min len.toNat 65536) (len.toNat - done.toNat) := by
      rw [toNat_min, toNat_min, UInt64.toNat_sub_of_le _ _ (UInt64.le_of_lt hlt)]
      rfl
    rw [UInt64.lt_iff_toNat_lt] at hlt
    rw [window]
    refine .seq (pread_range sock done (hs.contentOf.trans hc) hoff hrange
      (by omega) (by omega)) ?_
    rintro d s' l' ⟨hd, hbound, ⟨t, ht⟩, hs', hl'⟩
    have dpos := List.length_pos_iff.mpr hd
    change range.drop done.toNat = d ++ t at ht
    rw [if_neg hd]
    refine .seq (sendAll_succeeds sock d s') ?_
    rintro ok s'' l'' ⟨rfl, hs'', hl''⟩
    have advance : (done + UInt64.ofNat d.length).toNat = done.toNat + d.length := by
      simp only [UInt64.toNat_add, UInt64.toNat_ofNat']
      omega
    have grown : range.take (done.toNat + d.length) = range.take done.toNat ++ d := by
      rw [List.take_add, ht, List.take_left]
    rw [if_pos rfl]
    refine .pure ⟨⟨by omega, ?_, pieces ++ [d], ?_, ?_, ?_⟩, by omega⟩
    · rw [advance, grown]
      simpa using (hs.trans hs').trans hs''
    · rw [advance, grown]
      simp [hflat]
    · intro p hp
      rcases List.mem_append.mp hp with hp | hp
      · exact hsmall p hp
      · rw [List.mem_singleton.mp hp]
        omega
    · simpa using (hl.append hl').append hl''
  · rename_i hlt
    rw [UInt64.lt_iff_toNat_lt] at hlt
    rw [List.take_of_length_le (by omega)] at hs hflat
    exact .pure ⟨rfl, hs, pieces, hflat, hsmall, by simpa using hl₁.append hl⟩

end LineAccess

end LinkScheduling
