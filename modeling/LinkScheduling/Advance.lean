import LinkScheduling.Worker

/-! How far one round moves a PUT, and that a policy without a quantum preempts nobody: a round of
such a policy ends the request, whatever fails. -/

namespace LinkScheduling
open Effect

variable {fd : Int} {sp : SliceParams}

theorem sendLine_goesOn (v : GetLocals) (len : UInt64) :
    Fails (fun r => ∃ res, r = .inr res ∧ res = .preempted) (sendLine fd sp v len) := by
  refine .bind fun b => ?_
  cases b with
  | none => exact .pure (by simp)
  | some b => exact .bind fun _ => .pure (by simp)

theorem finishGet_ends (v : GetLocals) : Fails (· = .preempted) (finishGet fd v) := by
  refine .bind fun ok => .ite (fun _ => .bind fun _ => .pure (by simp)) fun _ => .pure (by simp)

theorem getTurn_ends (free : bounded sp.policy = false) (v : GetLocals) :
    Fails (fun r => ∃ res, r = .inr res ∧ res = .preempted) (getTurn fd sp v) := by
  refine .bind fun r => .ite (fun _ => .bind fun len => ?_) fun _ => ?_
  · refine .ite (fun _ => .pure (by simp)) fun _ => .ite (fun h => ?_) fun _ => .ite (fun h => ?_) fun _ => ?_
    · rw [h.1] at free
      cases free
    · rw [h.1] at free
      cases free
    · exact sendLine_goesOn v len
  · exact (finishGet_ends v).map fun a ha => by simpa using ha

theorem serveGet_ends (free : bounded sp.policy = false) : Fails (· = .preempted) (serveGet fd sp) := by
  refine .bind fun _ => .bind fun ok => .ite (fun _ => .bind fun r => ?_) fun _ => .pure (by simp)
  exact .loop (getTurn_ends free) _ _

theorem wp_onOs_any {α β : Type} {x : Sys α} {f : α → Slice β} {j : Job} {Q : Except Fault β → Job → Prop}
    (next : ∀ a os, wp (f a) ⟨j.req, os⟩ fun v j' _ => Q v j') (fail : ∀ e os, Q (.error e) ⟨j.req, os⟩) :
    wp (onOs x >>= f) j fun v j' _ => Q v j' := by
  refine wp_seq (onOs_spec (P := fun _ _ _ => True) trivial) ?_ ?_
  · rintro a ⟨req, os⟩ l ⟨rfl, -⟩
    exact next a os
  · rintro e ⟨req, os⟩ l ⟨rfl, -⟩
    exact fail e os

theorem putTurn_advances (take size done : UInt64) (j : Job) :
    wp (putTurn fd take size done) j fun v j' _ => match v with
      | .ok (.inl d) => done < take ∧ d = done + min size (take - done) ∧ j'.req.bytes = j.req.bytes ∧
          j'.req.byteOffset = j.req.byteOffset + min size (take - done)
      | .ok (.inr true) => ¬ done < take ∧ j'.req = j.req
      | _ => True := by
  unfold putTurn
  split
  · rw [wp_request_bind]
    refine wp_onOs_any (fun x os => ?_) fun _ _ => trivial
    rw [wp_setRequest_bind]
    split
    · refine wp_onOs_any (fun ok os => ?_) fun _ _ => trivial
      split
      · rw [wp_setRequest_bind, wp_pure]
        exact ⟨‹_›, rfl, rfl, rfl⟩
      · exact wp_onOs_any (fun _ _ => trivial) fun _ _ => trivial
    · exact wp_onOs_any (fun _ _ => trivial) fun _ _ => trivial
  · exact ⟨‹_›, rfl⟩

theorem chunk_pos {take : UInt64} (pos : 0 < take) : 0 < min take kChunk := by
  rw [UInt64.lt_iff_toNat_lt] at pos ⊢
  rw [toNat_min]
  exact lt_min pos (by decide)

theorem further_done {take size done : UInt64} (hsize : 0 < take → 0 < size) (lt : done < take) (le : done ≤ take) :
    done + min size (take - done) ≤ take ∧
      take.toNat - (done + min size (take - done)).toNat < take.toNat - done.toNat := by
  have size_pos := hsize (UInt64.lt_of_le_of_lt UInt64.zero_le lt)
  have n : (min size (take - done)).toNat = min size.toNat (take.toNat - done.toNat) := by
    rw [toNat_min, UInt64.toNat_sub_of_le _ _ le]
  have top := take.toNat_lt
  rw [UInt64.lt_iff_toNat_lt] at lt size_pos
  have sum : (done + min size (take - done)).toNat = done.toNat + min size.toNat (take.toNat - done.toNat) := by
    rw [UInt64.toNat_add, n]
    omega
  simp only [UInt64.toNat_zero] at size_pos
  exact ⟨UInt64.le_iff_toNat_le.mpr (by omega), by omega⟩

theorem putLoop_advances {take size : UInt64} (hsize : 0 < take → 0 < size) (j : Job) :
    wp (Prog.loop .spent (putTurn fd take size) (take.toNat + 1) 0) j fun v j' _ => v = .ok true →
      j'.req.bytes = j.req.bytes ∧ j'.req.byteOffset = j.req.byteOffset + take := by
  refine wp_loop (fun done j' _ => done ≤ take ∧ j'.req.bytes = j.req.bytes ∧
    j'.req.byteOffset = j.req.byteOffset + done) (fun done _ => take.toNat - done.toNat) ?_ _ _ _
    ⟨UInt64.zero_le, rfl, (UInt64.add_zero _).symm⟩ (by simp)
  rintro done j' l ⟨le, bytes, offset⟩
  refine wp_mono (putTurn_advances take size done j') ?_
  rintro (e | d | ok) j'' l' h
  · exact nofun
  · obtain ⟨lt, rfl, bytes', offset'⟩ := h
    obtain ⟨le', further⟩ := further_done hsize lt le
    refine ⟨⟨le', bytes'.trans bytes, ?_⟩, further⟩
    rw [offset', offset, UInt64.add_assoc]
  · intro hok
    cases hok
    obtain ⟨stop, same⟩ := h
    rw [same, bytes, offset, UInt64.le_antisymm le (UInt64.not_lt.mp stop)]
    exact ⟨rfl, rfl⟩

theorem installPut_ends : Fails (· = .preempted) (installPut fd) := by
  refine .bind fun r => .bind fun _ => .bind fun _ => .bind fun ok => .ite (fun _ => ?_) fun _ => ?_
  · exact .bind fun _ => .bind fun _ => .bind fun sent => .ite (fun _ => .pure (by simp)) fun _ => .pure (by simp)
  · exact .bind fun _ => .pure (by simp)

theorem beginPut_stays (j : Job) : wp (beginPut fd) j fun _ j' _ =>
    j'.req.bytes = j.req.bytes ∧ j'.req.byteOffset = j.req.byteOffset := by
  unfold beginPut
  rw [wp_request_bind]
  split
  · exact ⟨rfl, rfl⟩
  · refine wp_onOs_any (fun _ os => ?_) fun _ _ => ⟨rfl, rfl⟩
    rw [wp_setRequest_bind]
    refine wp_onOs_any (fun n os => ?_) fun _ _ => ⟨rfl, rfl⟩
    cases n with
    | none =>
      simp only
      rw [wp_setRequest_bind]
      exact wp_onOs_any (fun _ _ => ⟨rfl, rfl⟩) fun _ _ => ⟨rfl, rfl⟩
    | some n =>
      simp only
      rw [wp_setRequest_bind]
      refine wp_onOs_any (fun _ os => ?_) fun _ _ => ⟨rfl, rfl⟩
      refine wp_onOs_any (fun ok os => ?_) fun _ _ => ⟨rfl, rfl⟩
      split
      · exact ⟨rfl, rfl⟩
      · exact ⟨rfl, rfl⟩

theorem installPut_stays (j : Job) : wp (installPut fd) j fun _ j' _ =>
    j'.req.bytes = j.req.bytes ∧ j'.req.byteOffset = j.req.byteOffset := by
  unfold installPut
  rw [wp_request_bind, wp_close_bind, wp_setRequest_bind]
  refine wp_onOs_any (fun ok os => ?_) fun _ _ => ⟨rfl, rfl⟩
  split
  · rw [wp_setRequest_bind]
    refine wp_onOs_any (fun _ os => ?_) fun _ _ => ⟨rfl, rfl⟩
    refine wp_onOs_any (fun sent os => ?_) fun _ _ => ⟨rfl, rfl⟩
    split <;> exact ⟨rfl, rfl⟩
  · exact wp_onOs_any (fun _ _ => ⟨rfl, rfl⟩) fun _ _ => ⟨rfl, rfl⟩

/-- A round of a PUT that does not fail moves the offset by all of its bytes, and is preempted
where that is not the end of the body. -/
theorem servePut_advances (j : Job) : wp (servePut fd sp) j fun v j' _ =>
    v = .ok .preempted ∨ v = .ok .done → j'.req.bytes = j.req.bytes ∧
      j'.req.byteOffset = j.req.byteOffset + takeOf sp j.req ∧
      (v = .ok .preempted ↔ j'.req.byteOffset < j'.req.bytes) := by
  unfold servePut
  rw [wp_setRequest_bind]
  refine wp_seq (beginPut_stays _) ?_ fun _ _ _ _ => by simp
  rintro ok j₁ l₁ ⟨bytes₁, offset₁⟩
  simp only at bytes₁ offset₁
  split
  · rw [wp_request_bind]
    have same : (if bounded sp.policy then min sp.quantum (j₁.req.bytes - j₁.req.byteOffset)
        else j₁.req.bytes - j₁.req.byteOffset) = takeOf sp j.req := by
      rw [takeOf, bytes₁, offset₁]
    simp only [same]
    refine wp_onOs_any (Q := fun v j' => v = .ok SliceResult.preempted ∨ v = .ok .done →
      j'.req.bytes = j.req.bytes ∧ j'.req.byteOffset = j.req.byteOffset + takeOf sp j.req ∧
      (v = .ok .preempted ↔ j'.req.byteOffset < j'.req.bytes)) (fun _ os => ?_) fun _ _ => by simp
    refine wp_seq (putLoop_advances chunk_pos _) ?_ fun _ _ _ _ => by simp
    rintro ok j₂ l₂ h
    split
    · obtain ⟨bytes₂, offset₂⟩ := h (congrArg _ ‹_›)
      simp only at bytes₂ offset₂
      rw [wp_request_bind]
      split
      · rename_i more
        rw [wp_pure]
        exact fun _ => ⟨bytes₂.trans bytes₁, offset₂.trans (by rw [offset₁]), iff_of_true rfl more⟩
      · rename_i ended
        refine wp_mono (wp_and (installPut_stays j₂)
          (show wp (installPut fd) j₂ fun v _ _ => v ≠ .ok .preempted from
            fun hv => installPut_ends _ _ hv rfl)) ?_
        rintro v j₃ l₃ ⟨⟨bytes₃, offset₃⟩, other⟩ -
        rw [bytes₃, offset₃]
        exact ⟨bytes₂.trans bytes₁, offset₂.trans (by rw [offset₁]), iff_of_false other ended⟩
    · simp
  · simp

theorem servePut_preempted (j : Job) : wp (servePut fd sp) j fun v j' _ => v = .ok .preempted →
    bounded sp.policy = true ∧ j'.req.bytes = j.req.bytes ∧ j'.req.byteOffset < j'.req.bytes ∧
      j'.req.byteOffset = j.req.byteOffset + sp.quantum ∧
      sp.quantum ≤ j.req.bytes - j.req.byteOffset := by
  refine wp_mono (servePut_advances j) ?_
  rintro v j' l moved rfl
  obtain ⟨bytes, offset, more⟩ := moved (.inl rfl)
  have unfinished := more.mp rfl
  have whole : takeOf sp j.req ≠ j.req.bytes - j.req.byteOffset := by
    intro same
    rw [offset, bytes, same, UInt64.add_comm, UInt64.sub_add_cancel] at unfinished
    exact UInt64.lt_irrefl _ unfinished
  cases hb : bounded sp.policy with
  | false => simp [takeOf, hb] at whole
  | true =>
    have least : (takeOf sp j.req).toNat = min sp.quantum.toNat (j.req.bytes - j.req.byteOffset).toNat := by
      rw [takeOf, hb, if_pos rfl, toNat_min]
    have whole := UInt64.toNat_inj.not.mpr whole
    have quantum : takeOf sp j.req = sp.quantum := UInt64.toNat_inj.mp (by omega)
    exact ⟨rfl, bytes, unfinished, quantum ▸ offset, UInt64.le_iff_toNat_le.mpr (by omega)⟩

theorem servePut_ends (free : bounded sp.policy = false) : Fails (· = .preempted) (servePut fd sp) := by
  rintro j a ha rfl
  rw [(servePut_preempted j ha).1] at free
  cases free

theorem serveOrReport_ends (free : bounded sp.policy = false) :
    Fails (· = .preempted) (serveOrReport fd sp) := by
  refine .rescue (.bind fun r => ?_) fun e => ?_
  · cases r.op with
    | get => exact serveGet_ends free
    | put => exact servePut_ends free
  · cases e with
    | thrown => exact .bind fun _ => .pure (by simp)
    | spent =>
      intro j a ha
      cases ha

end LinkScheduling
