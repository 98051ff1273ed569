import LinkScheduling.Exchange

/-! One round of `serve_put`, whatever comes of its calls: the temp file holds what has been
received so far, and the destination changes only when all of it has been written and the
rename succeeds. `PutRound` says how a round can end. -/

namespace LinkScheduling
open Effect

/-- The inode `i` and the descriptor `t` belong to the temp file: the inode is what its name
leads to, or a new one, and the descriptor is open on it, or a new one. -/
structure Owned (tmp : Path) (t : Int) (i : Nat) (a : Files) : Prop where
  target : a.target tmp = i
  slot : t = a.nextFd ∨ ∃ pos, a.descs t = some ⟨i, pos⟩

/-- `b` is `a` with `tmp` naming the inode `i`, which holds `stored` and is open as `t` with
its offset at the end. -/
structure Held (tmp : Path) (t : Int) (i : Nat) (stored : Bytes) (a b : Files) : Prop where
  owned : Owned tmp t i a
  names : b.names = Function.update a.names tmp (some i)
  data : b.data = Function.update a.data i stored
  descs : b.descs = Function.update a.descs t (some ⟨i, stored.length⟩)
  nextIno : a.nextIno ≤ b.nextIno
  nextFd : a.nextFd ≤ b.nextFd

theorem Held.refl {tmp : Path} {t : Int} {i : Nat} {data : Bytes} {a : Files}
    (names : a.names tmp = some i) (hdata : a.data i = data) (descs : a.descs t = some ⟨i, data.length⟩) :
    Held tmp t i data a a where
  owned := ⟨by rw [Files.target, names]; rfl, .inr ⟨_, descs⟩⟩
  names := by rw [← names, Function.update_eq_self]
  data := by rw [← hdata, Function.update_eq_self]
  descs := by rw [← descs, Function.update_eq_self]
  nextIno := Nat.le_refl _
  nextFd := Nat.le_refl _

theorem Held.trans {tmp : Path} {t : Int} {i : Nat} {data data' : Bytes} {a b c : Files}
    (h : Held tmp t i data a b) (h' : Held tmp t i data' b c) : Held tmp t i data' a c where
  owned := h.owned
  names := by rw [h'.names, h.names, Function.update_idem]
  data := by rw [h'.data, h.data, Function.update_idem]
  descs := by rw [h'.descs, h.descs, Function.update_idem]
  nextIno := h.nextIno.trans h'.nextIno
  nextFd := h.nextFd.trans h'.nextFd

theorem Held.create (a : Files) (tmp : Path) :
    Held tmp a.nextFd (a.target tmp) [] a (a.openTrunc tmp) :=
  ⟨⟨rfl, .inl rfl⟩, rfl, rfl, rfl, Nat.le_max_left _ _, Nat.le_succ _⟩

theorem Held.desc {tmp : Path} {t : Int} {i : Nat} {data : Bytes} {a b : Files}
    (h : Held tmp t i data a b) : b.descs t = some ⟨i, data.length⟩ := by rw [h.descs]; simp

theorem Held.write {tmp : Path} {t : Int} {i : Nat} {data : Bytes} {a b : Files}
    (h : Held tmp t i data a b) (part : Bytes) (hd : b.descs t = some ⟨i, data.length⟩) :
    Held tmp t i (data ++ part) a (b.write t ⟨i, data.length⟩ hd part) where
  owned := h.owned
  names := h.names
  data := by
    have stored : b.data i = data := by rw [h.data]; simp
    rw [Files.write_data, stored, Files.overwrite_end, h.data, Function.update_idem]
  descs := by rw [Files.write_descs, h.descs, Function.update_idem, List.length_append]
  nextIno := h.nextIno
  nextFd := h.nextFd

/-- The entries of a sequence of writes to `t` that wrote `data` in all. -/
inductive Writing (t : Int) : Bytes → List Event → Prop
  | nil : Writing t [] []
  | wrote {data part : Bytes} {l : List Event} :
      Writing t data l → Writing t (data ++ part) (l ++ [.wrote t part])
  | interrupted {data : Bytes} {l : List Event} :
      Writing t data l → Writing t data (l ++ [.writeFailed t .intr])

theorem Writing.append {t : Int} {data data' : Bytes} {l l' : List Event} (h : Writing t data l)
    (h' : Writing t data' l') : Writing t (data ++ data') (l ++ l') := by
  induction h' with
  | nil => simpa using h
  | wrote _ ih =>
    rw [← List.append_assoc, ← List.append_assoc]
    exact .wrote ih
  | interrupted _ ih =>
    rw [← List.append_assoc]
    exact .interrupted ih

def renamesOf (l : List Event) : List (Path × Path) := l.filterMap fun
  | .renamed src dst => some (src, dst)
  | _ => none

@[simp] theorem renamesOf_append (l l' : List Event) :
    renamesOf (l ++ l') = renamesOf l ++ renamesOf l' := List.filterMap_append ..

theorem renamesOf_fileLog (l : List Event) : renamesOf (fileLog l) = renamesOf l := by
  induction l with
  | nil => rfl
  | cons e l ih =>
    have step : fileLog (e :: l) = fileLog [e] ++ fileLog l := fileLog_append [e] l
    have here : renamesOf (fileLog [e]) = renamesOf [e] := by cases e <;> rfl
    rw [step, renamesOf_append, here, ih, ← renamesOf_append]
    rfl

theorem Writing.renames {t : Int} {data : Bytes} {l : List Event} (h : Writing t data l) :
    renamesOf l = [] := by
  induction h with
  | nil => rfl
  | wrote _ ih => rw [renamesOf_append, ih]; rfl
  | interrupted _ ih => rw [renamesOf_append, ih]; rfl

theorem renames_of_quiet {l : List Event} (h : fileLog l = []) : renamesOf l = [] := by
  rw [← renamesOf_fileLog, h]
  rfl

section Writes
variable {tmp : Path} {t : Int} {i : Nat} {stored : Bytes} {a : Files} {os : Os}

theorem write_granted {fd : Int} {d : Desc} (hd : os.files.descs fd = some d) {most : Option Nat}
    (hv : os.verdict = .grant most) (data : Bytes) :
    write fd data os = ⟨.ok (.ok (data.take (amount data.length most)).length),
      { os.answered with files := os.files.write fd d hd (data.take (amount data.length most)) },
      [.wrote fd (data.take (amount data.length most))]⟩ := by
  unfold write call
  rw [hv]
  simp only
  split
  · rename_i hnone
    rw [Os.answered_files, hd] at hnone
    cases hnone
  · rename_i d' hsome
    have same := Option.some.inj (hd.symm.trans hsome)
    subst same
    rfl

theorem write_spec {data : Bytes} (hdata : data ≠ []) (held : Held tmp t i stored a os.files) :
    wp (write t data) os fun v os' l => ∃ r, v = .ok r ∧ Still os os' ∧
      ((∃ e, r = .error e ∧ os'.files = os.files ∧ fileLog l = [.writeFailed t e] ∧
          (e = .intr ↔ Clean l) ∧ os'.script.length < os.script.length) ∨
        ∃ k, r = .ok (k + 1) ∧ k < data.length ∧
          Held tmp t i (stored ++ data.take (k + 1)) a os'.files ∧
          fileLog l = [.wrote t (data.take (k + 1))] ∧ Clean l ∧
          os'.script.length ≤ os.script.length) := by
  cases hv : os.verdict with
  | fail e =>
    rw [write, wp_call, hv]
    exact ⟨_, rfl, ⟨rfl, rfl, rfl⟩, .inl ⟨e, rfl, rfl, rfl, by simp [Event.faulty],
      Os.answered_length_lt hv⟩⟩
  | grant most =>
    have moved := amount_pos (List.length_pos_iff.mpr hdata) most
    have bound := amount_le data.length most
    obtain ⟨k, hk⟩ := Nat.exists_eq_add_one_of_ne_zero (Nat.ne_of_gt moved)
    have length : (data.take (amount data.length most)).length = k + 1 := by
      rw [List.length_take]
      omega
    rw [wp, write_granted held.desc hv]
    refine ⟨_, rfl, ⟨rfl, rfl, rfl⟩, .inr ⟨k, by rw [length], by omega, ?_, ?_,
      by simp [Event.faulty], os.answered_length_le⟩⟩
    · rw [← hk]
      exact held.write _ held.desc
    · rw [← hk]
      rfl

/-- How a `write_all` of `data` to the temp file ends: it is clean exactly when it has
written all. -/
structure WritesAll (tmp : Path) (t : Int) (i : Nat) (stored data : Bytes) (a : Files) (os : Os)
    (ok : Bool) (os' : Os) (l : List Event) : Prop where
  still : Still os os'
  clean : ok = true ↔ Clean l
  wrote : ∃ part, part <+: data ∧ Held tmp t i (stored ++ part) a os'.files ∧
    (ok = true → part = data ∧ Writing t data (fileLog l))
  renames : renamesOf l = []

theorem writeAll_spec (data : Bytes) (held : Held tmp t i stored a os.files) :
    wp (writeAll t data) os fun v os' l =>
      ∃ ok, v = .ok ok ∧ WritesAll tmp t i stored data a os ok os' l := by
  rw [writeAll, wp_get_bind]
  refine wp_loop
    (fun done s l => done ≤ data.length ∧ Clean l ∧ Still os s ∧
      Held tmp t i (stored ++ data.take done) a s.files ∧ Writing t (data.take done) (fileLog l))
    (fun done s => data.length - done + s.script.length) ?_ _ 0 os
    ⟨Nat.zero_le _, clean_nil, Still.refl os, by simpa using held, .nil⟩ (by omega)
  rintro done s l ⟨hle, hclean, hstill, held', writing⟩
  unfold writeTurn
  split
  · rename_i hlt
    have rest : data.drop done ≠ [] := by
      rw [← List.length_pos_iff, List.length_drop]
      omega
    refine wp_seq (write_spec rest held') ?_ (by simp)
    rintro r s' l' ⟨r', hr, still, ⟨e, rfl, files, log, interrupted, shorter⟩ |
      ⟨k, rfl, hk, held'', log, hclean', script⟩⟩
    · cases hr
      have kept : Held tmp t i (stored ++ data.take done) a s'.files := files ▸ held'
      cases e with
      | intr =>
        rw [wp_pure, List.append_nil]
        refine ⟨⟨hle, by simpa [hclean] using interrupted, hstill.trans still, kept, ?_⟩, by omega⟩
        rw [fileLog_append, log]
        exact .interrupted writing
      | _ =>
        simp only [wp_pure, List.append_nil]
        refine ⟨false, rfl, hstill.trans still, by simpa [hclean] using interrupted,
          ⟨_, List.take_prefix done data, kept, by simp⟩, ?_⟩
        rw [← renamesOf_fileLog, fileLog_append, renamesOf_append, log, writing.renames]
        rfl
    · cases hr
      rw [List.length_drop] at hk
      have taken : data.take done ++ (data.drop done).take (k + 1) = data.take (done + (k + 1)) :=
        List.take_add.symm
      rw [List.append_assoc, taken] at held''
      simp only [wp_pure, List.append_nil]
      refine ⟨⟨by omega, by simp [hclean, hclean'], hstill.trans still, held'', ?_⟩, by omega⟩
      rw [fileLog_append, log, ← taken]
      exact .wrote writing
  · have whole : data.take done = data := List.take_of_length_le (by omega)
    rw [whole] at held' writing
    rw [wp_pure, List.append_nil]
    exact ⟨true, rfl, hstill, by simpa using hclean, ⟨data, List.prefix_refl _, held', fun _ => ⟨rfl, writing⟩⟩,
      by rw [← renamesOf_fileLog]; exact writing.renames⟩

end Writes

/-- The bytes `out` of an answer have gone out, and nothing else has happened. -/
structure Answered (fd : Int) (out : Bytes) (j j' : Job) (l : List Event) : Prop where
  req : j'.req = j.req
  files : j'.os.files = j.os.files
  fileLog : fileLog l = []
  talks : Talks fd [] out j.os j'.os

theorem report_spec {α : Type} (fd : Int) (reason : Bytes) (x : α) (j : Job) :
    wp (do onOs (sendError fd reason); pure x : Slice α) j fun v j' l =>
      (v = .ok x ∨ v = .error .thrown) ∧ ∃ out, out <+: formatErr reason ∧ Answered fd out j j' l := by
  refine wp_seq (onOs_spec (sendError_spec fd reason j.os)) ?_ ?_
  · rintro ⟨⟩ j' l ⟨hreq, -, files, log, out, hout, talks⟩
    rw [wp_pure, List.append_nil]
    exact ⟨.inl rfl, out, hout, hreq, files, log, talks⟩
  · rintro e j' l ⟨hreq, hv, files, log, out, hout, talks⟩
    rcases hv with hv | ⟨hv, -⟩
    · cases hv
    · cases hv
      exact ⟨.inr rfl, out, hout, hreq, files, log, talks⟩

theorem answer_bind {α : Type} {fd : Int} {data : Bytes} {j : Job} {f : Bool → Slice α}
    {Q : Except Fault α → Job → List Event → Prop}
    (whole : ∀ j' l, Answered fd data j j' l → Clean l → wp (f true) j' fun v s l' => Q v s (l ++ l'))
    (short : ∀ out j' l, out <+: data → Answered fd out j j' l → ¬ Clean l →
      wp (f false) j' fun v s l' => Q v s (l ++ l'))
    (thrown : ∀ j' l, Answered fd [] j j' l → ¬ Clean l → Q (.error .thrown) j' l) :
    wp (do onOs alloc; f (← onOs (sendAll fd data))) j Q := by
  refine wp_seq (onOs_spec (alloc_spec j.os)) ?_ ?_
  · rintro ⟨⟩ j₁ l₁ ⟨hreq₁, idles, ⟨-, clean₁⟩ | ⟨h, -⟩⟩
    · refine wp_seq (onOs_spec (sendAll_spec fd data j₁.os)) ?_ (by simp)
      rintro ok j₂ l₂ ⟨hreq₂, ok', hok, sentAll⟩
      cases hok
      obtain ⟨out, hout, all, talks⟩ := sentAll.sent
      have answered : Answered fd out j j₂ (l₁ ++ l₂) := by
        refine ⟨hreq₂.trans hreq₁, sentAll.files.trans idles.files, ?_, ?_⟩
        · rw [fileLog_append, idles.fileLog, sentAll.fileLog]
          rfl
        · exact (idles.still.talks fd).trans talks
      cases ok with
      | true =>
        rw [all rfl] at answered
        simpa only [List.append_assoc] using
          whole j₂ (l₁ ++ l₂) answered (by simp [clean₁, sentAll.clean.mp rfl])
      | false =>
        have faulty : ¬ Clean l₂ := fun clean => by simpa using sentAll.clean.mpr clean
        simpa only [List.append_assoc] using
          short out j₂ (l₁ ++ l₂) hout answered (by simp [faulty])
    · cases h
  · rintro e j₁ l₁ ⟨hreq₁, idles, ⟨h, -⟩ | ⟨h, faulty⟩⟩
    · cases h
    · cases h
      exact thrown j₁ l₁ ⟨hreq₁, idles.files, idles.fileLog, idles.still.talks fd⟩ faulty

def putErrors : List Bytes := [ascii "cannot write file", ascii "body shorter than declared"]

/-- Since the job `j`, with `stored` in the temp file, the loop has received `got` and written
`part` behind it. -/
structure Receiving (fd : Int) (tmp : Path) (t : Int) (i : Nat) (stored : Bytes) (a : Files)
    (j : Job) (part got : Bytes) (j' : Job) (l : List Event) : Prop where
  held : Held tmp t i (stored ++ part) a j'.os.files
  talks : Talks fd got [] j.os j'.os
  arrived : got <+: j.os.arrived fd
  bytes : part ++ j'.req.leftover = j.req.leftover ++ got
  req : j'.req = { j.req with
    leftover := j'.req.leftover, byteOffset := j.req.byteOffset + UInt64.ofNat part.length }
  clean : Clean l
  writing : Writing t part (fileLog l)

/-- The loop of a round that had `take` bytes to move has ended early: with a fault, or
because the peer has not written that much. -/
structure PutFails (fd : Int) (tmp : Path) (t : Int) (i : Nat) (stored : Bytes) (a : Files)
    (take : Nat) (j j' : Job) (l : List Event) : Prop where
  held : ∃ part, Held tmp t i (stored ++ part) a j'.os.files
  talks : ∃ got out, Talks fd got out j.os j'.os ∧ ∃ reason ∈ putErrors, out <+: formatErr reason
  req : ∃ leftover byteOffset, j'.req = { j.req with leftover := leftover, byteOffset := byteOffset }
  renames : renamesOf l = []
  short : Clean l → j.req.leftover.length + (j.os.arrived fd).length < take

section Loop
variable {fd t : Int} {tmp : Path} {i : Nat} {stored part got : Bytes} {a : Files} {j j' : Job}
  {l : List Event}

theorem Receiving.fileFd (h : Receiving fd tmp t i stored a j part got j' l) :
    j'.req.fileFd = j.req.fileFd := by rw [h.req]

theorem Receiving.further (h : Receiving fd tmp t i stored a j part got j' l) {more : Bytes}
    (hmore : more <+: j'.os.arrived fd) : got ++ more <+: j.os.arrived fd := by
  obtain ⟨rest, hrest⟩ := h.arrived
  rw [h.talks.arrived, ← hrest, List.drop_left] at hmore
  rw [← hrest]
  exact (List.prefix_append_right_inj got).mpr hmore

theorem Receiving.remaining (h : Receiving fd tmp t i stored a j part got j' l) :
    part.length + (j'.req.leftover.length + (j'.os.arrived fd).length) =
      j.req.leftover.length + (j.os.arrived fd).length := by
  have bytes := congrArg List.length h.bytes
  have within := h.arrived.length_le
  rw [h.talks.arrived, List.length_drop]
  simp only [List.length_append] at bytes
  omega

theorem PutFails.report (take : Nat) {reason : Bytes} (hreason : reason ∈ putErrors)
    (held : ∃ part, Held tmp t i (stored ++ part) a j'.os.files)
    (talks : ∃ got, Talks fd got [] j.os j'.os)
    (req : ∃ leftover byteOffset,
      j'.req = { j.req with leftover := leftover, byteOffset := byteOffset })
    (renames : renamesOf l = [])
    (short : Clean l → j.req.leftover.length + (j.os.arrived fd).length < take) :
    wp (do onOs (sendError fd reason); pure (.inr false) : Slice (UInt64 ⊕ Bool)) j'
      fun v j'' l' => (v = .ok (.inr false) ∨ v = .error .thrown) ∧
        PutFails fd tmp t i stored a take j j'' (l ++ l') := by
  obtain ⟨part, held⟩ := held
  obtain ⟨got, talks⟩ := talks
  refine wp_mono (report_spec fd reason _ j') ?_
  rintro v j'' l' ⟨hv, out, hout, answered⟩
  exact ⟨hv, ⟨part, answered.files ▸ held⟩,
    ⟨got, out, by simpa using talks.trans answered.talks, reason, hreason, hout⟩, by rwa [answered.req],
    by simp [renames, renames_of_quiet answered.fileLog],
    fun clean => short ((clean_append _ _).mp clean).1⟩

theorem putTurn_spec {take size done : UInt64} (h : Receiving fd tmp t i stored a j part got j' l)
    (hfile : j.req.fileFd = t) (hdone : done.toNat = part.length) (hle : done ≤ take)
    (hsize : done < take → 0 < size.toNat) :
    wp (putTurn fd take size done) j' fun v j'' l' => match v with
      | .ok (.inl done') => ∃ part' got', Receiving fd tmp t i stored a j part' got' j'' (l ++ l') ∧
          done'.toNat = part'.length ∧ done' ≤ take ∧ done.toNat < done'.toNat
      | .ok (.inr true) => Receiving fd tmp t i stored a j part got j'' (l ++ l') ∧
          part.length = take.toNat
      | .ok (.inr false) => PutFails fd tmp t i stored a take.toNat j j'' (l ++ l')
      | .error e => e = .thrown ∧ PutFails fd tmp t i stored a take.toNat j j'' (l ++ l') := by
  have remaining := h.remaining
  unfold putTurn
  split
  · rename_i hlt
    have chunk : (min size (take - done)).toNat = min size.toNat (take.toNat - done.toNat) := by
      rw [toNat_min, UInt64.toNat_sub_of_le _ _ hle]
    have pos := hsize hlt
    rw [UInt64.lt_iff_toNat_lt] at hlt
    rw [wp_request_bind]
    refine wp_seq (onOs_spec (readExact_spec fd _ _ _ j'.os)) ?_ (by simp)
    rintro x j₁ l₁ ⟨hreq₁, y, hx, reads⟩
    cases hx
    rw [wp_setRequest_bind]
    obtain ⟨got₁, bytes₁, arrived₁, talks₁, exhausted⟩ := reads.moved
    have hfile' : j'.req.fileFd = t := h.fileFd.trans hfile
    have held₁ : Held tmp t i (stored ++ part) a j₁.os.files := reads.files ▸ h.held
    have quiet : renamesOf (l ++ l₁) = [] := by
      rw [renamesOf_append, renames_of_quiet reads.fileLog, ← renamesOf_fileLog, h.writing.renames]
      rfl
    have req₁ : ∃ leftover byteOffset, { j₁.req with leftover := x.leftover } =
        { j.req with leftover := leftover, byteOffset := byteOffset } := by
      rw [hreq₁, h.req]
      exact ⟨_, _, rfl⟩
    split
    · rename_i hok
      obtain ⟨length, hclean₁⟩ := reads.full hok
      rw [hfile']
      refine wp_seq (onOs_spec (writeAll_spec x.out held₁)) ?_ (by simp)
      rintro ok j₂ l₂ ⟨hreq₂, ok', hok', writes⟩
      cases hok'
      obtain ⟨part₂, -, held₂, whole⟩ := writes.wrote
      rw [List.append_assoc] at held₂
      have talks₂ := (h.talks.trans talks₁).then_quiet (writes.still.talks fd)
      split
      · rename_i htrue
        obtain ⟨rfl, writing₂⟩ := whole htrue
        have top := take.toNat_lt
        have advance : (done + min size (take - done)).toNat = done.toNat + x.out.length := by
          rw [UInt64.toNat_add, length]
          omega
        have more : UInt64.ofNat (part ++ x.out).length =
            UInt64.ofNat part.length + min size (take - done) := by
          rw [List.length_append, length, UInt64.ofNat_add, UInt64.ofNat_toNat]
        rw [wp_setRequest_bind, wp_pure]
        refine ⟨part ++ x.out, got ++ got₁, ⟨held₂, talks₂, h.further arrived₁, ?_, ?_, ?_, ?_⟩, ?_, ?_, ?_⟩
        · rw [hreq₂, List.append_assoc, bytes₁, ← List.append_assoc, h.bytes, List.append_assoc]
        · rw [more, ← UInt64.add_assoc, hreq₂, hreq₁, h.req]
        · simp [h.clean, hclean₁, (writes.clean).mp htrue]
        · rw [List.append_nil, fileLog_append, fileLog_append, reads.fileLog, List.nil_append]
          exact h.writing.append writing₂
        · rw [advance, hdone, List.length_append]
        · rw [UInt64.le_iff_toNat_le, advance]
          omega
        · omega
      · rename_i hfalse
        have faulty : ¬ Clean l₂ := fun clean => hfalse (writes.clean.mpr clean)
        refine wp_mono (PutFails.report take.toNat (l := l ++ l₁ ++ l₂) (by simp [putErrors]) ⟨_, held₂⟩
          ⟨_, talks₂⟩ (by rwa [hreq₂]) (by rw [renamesOf_append, quiet, writes.renames]; rfl)
          (by simp [faulty])) ?_
        rintro v j₃ l₃ ⟨hv, fails⟩
        rw [List.append_assoc, List.append_assoc] at fails
        rcases hv with rfl | rfl
        · exact fails
        · exact ⟨rfl, fails⟩
    · rename_i hok
      have hfalse : x.ok = false := by simpa using hok
      refine wp_mono (PutFails.report take.toNat (l := l ++ l₁) (by simp [putErrors]) ⟨part, held₁⟩
        ⟨_, h.talks.trans talks₁⟩ req₁ quiet ?_) ?_
      · intro clean
        have all := exhausted hfalse ((clean_append _ _).mp clean).2
        have short := reads.short hfalse
        have lengths := congrArg List.length bytes₁
        rw [reads.leftover_le, all, List.length_append, List.length_append, List.length_drop] at lengths
        omega
      · rintro v j₃ l₃ ⟨hv, fails⟩
        rw [List.append_assoc] at fails
        rcases hv with rfl | rfl
        · exact fails
        · exact ⟨rfl, fails⟩
  · rename_i hge
    have equal : done = take := UInt64.le_antisymm hle (UInt64.not_lt.mp hge)
    rw [wp_pure, List.append_nil]
    exact ⟨h, by rw [← hdone, equal]⟩

theorem putLoop_spec (fd : Int) {tmp : Path} {t : Int} {i : Nat} {stored : Bytes} {a : Files}
    {j : Job} (take : UInt64) (held : Held tmp t i stored a j.os.files) (hfile : j.req.fileFd = t) :
    wp (Prog.loop .spent (putTurn fd take (min take kChunk)) (take.toNat + 1) 0) j
      fun v j' l => match v with
        | .ok true => ∃ part got, Receiving fd tmp t i stored a j part got j' l ∧
            part.length = take.toNat
        | .ok false => PutFails fd tmp t i stored a take.toNat j j' l
        | .error e => e = .thrown ∧ PutFails fd tmp t i stored a take.toNat j j' l := by
  have start : Receiving fd tmp t i stored a j [] [] j [] :=
    ⟨by simpa using held, Talks.refl fd j.os, List.nil_prefix, by simp, by simp, clean_nil, .nil⟩
  refine wp_loop
    (fun done j' l => ∃ part got, Receiving fd tmp t i stored a j part got j' l ∧
      done.toNat = part.length ∧ done ≤ take)
    (fun done _ => take.toNat - done.toNat) ?_ _ 0 j ⟨[], [], start, rfl, UInt64.zero_le⟩ (by simp)
  rintro done j' l ⟨part, got, h, hdone, hle⟩
  have size : done < take → 0 < (min take kChunk).toNat := by
    intro hlt
    rw [UInt64.lt_iff_toNat_lt] at hlt
    have chunk : kChunk.toNat = 65536 := rfl
    rw [toNat_min]
    omega
  refine wp_mono (putTurn_spec h hfile hdone hle size) ?_
  rintro (e | done' | ok) j'' l' post
  · exact post
  · obtain ⟨part', got', h', hdone', hle', further⟩ := post
    rw [UInt64.le_iff_toNat_le] at hle'
    exact ⟨⟨part', got', h', hdone', UInt64.le_iff_toNat_le.mpr hle'⟩, by omega⟩
  · cases ok with
    | true => exact ⟨part, got, post⟩
    | false => exact post

end Loop

def tempPath (r : Request) : Path := r.path ++ ascii ".tmp." ++ decimal r.id

def greeting (r : Request) : Bytes := if r.started then [] else formatOk 0

/-- A PUT between its rounds: not begun, or with `stored` in its temp file. -/
inductive PutReady (stored : Bytes) (j : Job) : Prop
  | fresh : stored = [] → j.req.started = false → j.req.tmpPath = [] → j.req.fileFd = -1 →
      PutReady stored j
  | begun {i : Nat} : j.req.started = true → j.req.tmpPath = tempPath j.req → 0 ≤ j.req.fileFd →
      j.os.files.names (tempPath j.req) = some i → j.os.files.data i = stored →
      j.os.files.descs j.req.fileFd = some ⟨i, stored.length⟩ → PutReady stored j

def opening (r : Request) (t : Int) : List Event := if r.started then [] else [.opened (tempPath r) t]

structure Begun (fd t : Int) (i : Nat) (stored : Bytes) (j j' : Job) (l : List Event) : Prop where
  again : j.req.started = true → t = j.req.fileFd ∧ j.os.files.names (tempPath j.req) = some i
  held : Held (tempPath j.req) t i stored j.os.files j'.os.files
  desc : 0 ≤ t
  talks : Talks fd [] (greeting j.req) j.os j'.os
  req : j'.req = { j.req with tmpPath := tempPath j.req, fileFd := t, started := true }
  clean : Clean l
  log : fileLog l = opening j.req t

structure Refused (fd : Int) (j j' : Job) (l : List Event) : Prop where
  fresh : j.req.started = false
  files : j'.os.files = j.os.files
  talks : ∃ out, Talks fd [] out j.os j'.os ∧ ∃ reason ∈ putErrors, out <+: formatErr reason
  req : j'.req = j.req
  faulty : ¬ Clean l
  log : ∀ e ∈ fileLog l, e = .openFailed (tempPath j.req)

/-- The round has ended with the temp file open and the header not answered. -/
structure Unanswered (fd t : Int) (i : Nat) (j j' : Job) (l : List Event) : Prop where
  fresh : j.req.started = false
  held : Held (tempPath j.req) t i [] j.os.files j'.os.files
  desc : 0 ≤ t
  talks : ∃ out, out <+: formatOk 0 ∧ Talks fd [] out j.os j'.os
  req : j'.req = { j.req with tmpPath := tempPath j.req, fileFd := t }
  faulty : ¬ Clean l
  log : fileLog l = [.opened (tempPath j.req) t]

theorem openTrunc_spec (p : Path) (os : Os) : wp (openTrunc p) os fun v os' l => Still os os' ∧
    ((v = .ok none ∧ os'.files = os.files ∧ l = [.openFailed p]) ∨
      (v = .ok (some os.files.nextFd) ∧ os'.files = os.files.openTrunc p ∧
        l = [.opened p os.files.nextFd])) := by
  rw [openTrunc, wp_call]
  cases os.verdict with
  | fail e => exact ⟨⟨rfl, rfl, rfl⟩, .inl ⟨rfl, rfl, rfl⟩⟩
  | grant most => exact ⟨⟨rfl, rfl, rfl⟩, .inr ⟨rfl, rfl, rfl⟩⟩

theorem beginPut_spec (fd : Int) {stored : Bytes} {j : Job} (ready : PutReady stored j) :
    wp (beginPut fd) j fun v j' l =>
      (v = .ok true ∧ ∃ t i, Begun fd t i stored j j' l) ∨
      ((v = .ok false ∨ v = .error .thrown) ∧ stored = [] ∧
        (Refused fd j j' l ∨ ∃ t i, Unanswered fd t i j j' l)) := by
  rw [beginPut, wp_request_bind]
  cases ready with
  | @begun i started tmpPath fileFd names data descs =>
    rw [if_pos started, wp_pure]
    refine .inl ⟨rfl, j.req.fileFd, i, ⟨fun _ => ⟨rfl, names⟩, Held.refl names data descs, fileFd, ?_, ?_,
      clean_nil, ?_⟩⟩
    · rw [greeting, if_pos started]
      exact Talks.refl fd j.os
    · rw [← tmpPath, ← started]
    · rw [opening, if_pos started]
      rfl
  | fresh hstored started tmpPath fileFd =>
    have first : ¬ j.req.started = true := by simp [started]
    rw [if_neg first]
    refine wp_seq (onOs_spec (alloc_spec j.os)) ?_ ?_
    · rintro ⟨⟩ j₁ l₁ ⟨hreq₁, idles₁, h₁⟩
      have hclean₁ : Clean l₁ := by
        rcases h₁ with ⟨-, h⟩ | ⟨h, -⟩
        · exact h
        · cases h
      rw [wp_setRequest_bind]
      refine wp_seq (onOs_spec (openTrunc_spec (tempPath j.req) j₁.os)) ?_ ?_
      · rintro r j₂ l₂ ⟨hreq₂, still₂, ⟨hr, files₂, rfl⟩ | ⟨hr, files₂, rfl⟩⟩
        · cases hr
          rw [wp_setRequest_bind]
          refine wp_mono (report_spec fd _ _ _) ?_
          rintro v j₃ l₃ ⟨hv, out, hout, answered⟩
          refine .inr ⟨hv, hstored, .inl ⟨started, answered.files.trans (files₂.trans idles₁.files),
            ⟨out, ?_, _, List.mem_cons_self, hout⟩, ?_, by simp [Event.faulty], ?_⟩⟩
          · simpa using ((idles₁.still.trans still₂).talks fd).trans answered.talks
          · rw [answered.req, hreq₂, hreq₁, ← fileFd, ← tmpPath]
          · simp [idles₁.fileLog, answered.fileLog, Event.onFile]
        · cases hr
          rw [wp_setRequest_bind]
          have held₂ : Held (tempPath j.req) j.os.files.nextFd (j.os.files.target (tempPath j.req)) []
              j.os.files j₂.os.files := by
            rw [files₂, idles₁.files]
            exact Held.create _ _
          have req₂ : { j₂.req with fileFd := (j₁.os.files.nextFd : Int) } =
              { j.req with tmpPath := tempPath j.req, fileFd := (j.os.files.nextFd : Int) } := by
            rw [hreq₂, hreq₁, idles₁.files]
            rfl
          have log₂ : fileLog (l₁ ++ [.opened (tempPath j.req) j₁.os.files.nextFd]) =
              [.opened (tempPath j.req) j.os.files.nextFd] := by
            simp [idles₁.fileLog, idles₁.files, Event.onFile]
          have talks₂ := (idles₁.still.trans still₂).talks fd
          rw [req₂]
          have unanswered : ∀ out j₃ l₃, out <+: formatOk 0 →
              Answered fd out ⟨{ j.req with tmpPath := tempPath j.req, fileFd := j.os.files.nextFd }, j₂.os⟩
                j₃ l₃ → ¬ Clean l₃ →
              Unanswered fd j.os.files.nextFd (j.os.files.target (tempPath j.req)) j j₃
                (l₁ ++ ([.opened (tempPath j.req) j₁.os.files.nextFd] ++ l₃)) := by
            intro out j₃ l₃ hout answered faulty
            refine ⟨started, answered.files ▸ held₂, Int.natCast_nonneg _,
              ⟨out, hout, by simpa using talks₂.trans answered.talks⟩, answered.req, by simp [faulty], ?_⟩
            rw [← List.append_assoc, fileLog_append, log₂, answered.fileLog, List.append_nil]
          refine answer_bind ?_ ?_ ?_
          · intro j₃ l₃ answered clean₃
            rw [if_pos rfl, wp_setRequest_bind, wp_pure, List.append_nil]
            refine .inl ⟨rfl, j.os.files.nextFd, j.os.files.target (tempPath j.req),
              ⟨fun h => absurd h first, ?_, Int.natCast_nonneg _, ?_, ?_, ?_, ?_⟩⟩
            · rw [hstored]
              exact answered.files ▸ held₂
            · rw [greeting, if_neg first]
              simpa using talks₂.trans answered.talks
            · rw [answered.req]
            · simp [hclean₁, clean₃, Event.faulty]
            · rw [opening, if_neg first, ← List.append_assoc, fileLog_append, log₂, answered.fileLog,
                List.append_nil]
          · intro out j₃ l₃ hout answered faulty
            rw [if_neg (by simp), wp_pure, List.append_nil]
            exact .inr ⟨.inl rfl, hstored, .inr ⟨_, _, unanswered out j₃ l₃ hout answered faulty⟩⟩
          · intro j₃ l₃ answered faulty
            exact .inr ⟨.inr rfl, hstored, .inr ⟨_, _, unanswered [] j₃ l₃ List.nil_prefix answered faulty⟩⟩
      · rintro e j₂ l₂ ⟨-, -, ⟨h, -⟩ | ⟨h, -⟩⟩ <;> cases h
    · rintro e j₁ l₁ ⟨hreq₁, idles₁, ⟨h, -⟩ | ⟨h, faulty⟩⟩
      · cases h
      · cases h
        exact .inr ⟨.inr rfl, hstored, .inl ⟨started, idles₁.files, ⟨[], idles₁.still.talks fd, _, List.mem_cons_self,
          List.nil_prefix⟩, hreq₁, faulty, by simp [idles₁.fileLog]⟩⟩

/-- `b` is `a` with `tmp` naming the inode `i`, which holds `stored`, and `t` closed. -/
structure Closed (tmp : Path) (t : Int) (i : Nat) (stored : Bytes) (a b : Files) : Prop where
  owned : Owned tmp t i a
  names : b.names = Function.update a.names tmp (some i)
  data : b.data = Function.update a.data i stored
  descs : b.descs = Function.update a.descs t none
  nextIno : a.nextIno ≤ b.nextIno
  nextFd : a.nextFd ≤ b.nextFd

/-- `b` is `a` with `dst` naming the inode `i`, which holds `body`, and no temp file. -/
structure Installed (tmp dst : Path) (t : Int) (i : Nat) (body : Bytes) (a b : Files) : Prop where
  owned : Owned tmp t i a
  names : b.names = Function.update (Function.update a.names tmp none) dst (some i)
  data : b.data = Function.update a.data i body
  descs : b.descs = Function.update a.descs t none
  nextIno : a.nextIno ≤ b.nextIno
  nextFd : a.nextFd ≤ b.nextFd

theorem Held.close {tmp : Path} {t : Int} {i : Nat} {stored : Bytes} {a b : Files}
    (h : Held tmp t i stored a b) : Closed tmp t i stored a (b.close t) where
  owned := h.owned
  names := h.names
  data := h.data
  descs := by rw [Files.close_descs, h.descs, Function.update_idem]
  nextIno := h.nextIno
  nextFd := h.nextFd

theorem Closed.rename {tmp dst : Path} {t : Int} {i : Nat} {body : Bytes} {a b : Files}
    (h : Closed tmp t i body a b) (hsrc : b.names tmp = some i) :
    Installed tmp dst t i body a (b.rename tmp dst i hsrc) where
  owned := h.owned
  names := by rw [Files.rename_names, h.names, Function.update_idem]
  data := h.data
  descs := h.descs
  nextIno := h.nextIno
  nextFd := h.nextFd

theorem rename_spec {src : Path} {i : Nat} {os : Os} (hsrc : os.files.names src = some i) (dst : Path) :
    wp (rename src dst) os fun v os' l => Still os os' ∧
      ((v = .ok false ∧ os'.files = os.files ∧ l = [.renameFailed src dst]) ∨
        (v = .ok true ∧ os'.files = os.files.rename src dst i hsrc ∧ l = [.renamed src dst])) := by
  unfold wp rename call
  cases os.verdict with
  | fail e => exact ⟨⟨rfl, rfl, rfl⟩, .inl ⟨rfl, rfl, rfl⟩⟩
  | grant most =>
    simp only
    split
    · rename_i hnone
      rw [Os.answered_files, hsrc] at hnone
      cases hnone
    · rename_i k hsome
      have same := Option.some.inj (hsrc.symm.trans hsome)
      subst same
      exact ⟨⟨rfl, rfl, rfl⟩, .inr ⟨rfl, rfl, rfl⟩⟩

structure Unrenamed (fd : Int) (tmp : Path) (t : Int) (i : Nat) (body : Bytes) (a : Files)
    (j j' : Job) (l : List Event) : Prop where
  files : Closed tmp t i body a j'.os.files
  talks : ∃ out, Talks fd [] out j.os j'.os ∧ ∃ reason ∈ putErrors, out <+: formatErr reason
  req : j'.req = { j.req with fileFd := -1 }
  faulty : ¬ Clean l
  renames : renamesOf l = []

structure Renamed (fd : Int) (tmp : Path) (t : Int) (i : Nat) (body : Bytes) (a : Files)
    (j : Job) (v : Except Fault SliceResult) (j' : Job) (l : List Event) : Prop where
  files : Installed tmp j.req.path t i body a j'.os.files
  talks : ∃ out, out <+: formatOk 0 ∧ Talks fd [] out j.os j'.os ∧ (v = .ok .done → out = formatOk 0)
  req : j'.req = { j.req with fileFd := -1, tmpPath := [] }
  result : v = .ok .done ∧ Clean l ∨ (v = .ok .failed ∨ v = .error .thrown) ∧ ¬ Clean l
  log : fileLog l = [.renamed tmp j.req.path]

theorem installPut_spec (fd : Int) {tmp : Path} {t : Int} {i : Nat} {body : Bytes} {a : Files} {j : Job}
    (held : Held tmp t i body a j.os.files) (fileFd : j.req.fileFd = t) (tmpPath : j.req.tmpPath = tmp) :
    wp (installPut fd) j fun v j' l =>
      ((v = .ok .failed ∨ v = .error .thrown) ∧ Unrenamed fd tmp t i body a j j' l) ∨
        Renamed fd tmp t i body a j v j' l := by
  rw [installPut, wp_request_bind]
  rw [wp_close_bind, fileFd]
  obtain ⟨j₁, hj₁⟩ : ∃ j₁ : Job, j₁ = ⟨j.req, { j.os with files := j.os.files.close t }⟩ := ⟨_, rfl⟩
  have hreq₁ : j₁.req = j.req := by rw [hj₁]
  have still₁ : Still j.os j₁.os := by rw [hj₁]; exact ⟨rfl, rfl, rfl⟩
  have closed : Closed tmp t i body a j₁.os.files := by rw [hj₁]; exact held.close
  have source : j₁.os.files.names tmp = some i := by rw [closed.names]; simp
  rw [← hj₁]
  rw [wp_setRequest_bind, tmpPath]
  refine wp_seq (onOs_spec (rename_spec source j.req.path)) ?_ (by simp)
  rintro ok j₂ l₂ ⟨hreq₂, still₂, ⟨hok, files₂, rfl⟩ | ⟨hok, files₂, rfl⟩⟩
  · cases hok
    rw [if_neg (by simp)]
    refine wp_mono (report_spec fd _ _ _) ?_
    rintro v j₃ l₃ ⟨hv, out, hout, answered⟩
    refine .inl ⟨hv, ?_, ⟨out, ?_, _, List.mem_cons_self, hout⟩, ?_, by simp [Event.faulty], ?_⟩
    · rw [answered.files, files₂]
      exact closed
    · simpa using ((still₁.trans still₂).talks fd).trans answered.talks
    · rw [answered.req, hreq₂, hreq₁]
    · have quiet := renames_of_quiet answered.fileLog
      change renamesOf ([.closed t, .renameFailed tmp j.req.path] ++ l₃) = []
      rw [renamesOf_append, quiet]
      rfl
  · cases hok
    rw [if_pos rfl, wp_setRequest_bind]
    have installed : Installed tmp j.req.path t i body a j₂.os.files := by
      rw [files₂]
      exact closed.rename source
    have renamed : ∀ v out j₃ l₃, out <+: formatOk 0 →
        Answered fd out ⟨{ j₂.req with tmpPath := [] }, j₂.os⟩ j₃ l₃ →
        (v = .ok .done → out = formatOk 0) →
        (v = .ok .done ∧ Clean l₃ ∨ (v = .ok .failed ∨ v = .error .thrown) ∧ ¬ Clean l₃) →
        Renamed fd tmp t i body a j v j₃ (.closed t :: ([.renamed tmp j.req.path] ++ l₃)) := by
      intro v out j₃ l₃ hout answered done result
      refine ⟨answered.files ▸ installed, ⟨out, hout, ?_, done⟩, ?_, by simpa [Event.faulty] using result, ?_⟩
      · simpa using ((still₁.trans still₂).talks fd).trans answered.talks
      · rw [answered.req, hreq₂, hreq₁]
      · simp [answered.fileLog, Event.onFile]
    refine answer_bind ?_ ?_ ?_
    · intro j₃ l₃ answered clean
      rw [if_pos rfl, wp_pure, List.append_nil]
      exact .inr (renamed _ _ _ _ (List.prefix_refl _) answered (fun _ => rfl) (.inl ⟨rfl, clean⟩))
    · intro out j₃ l₃ hout answered faulty
      rw [if_neg (by simp), wp_pure, List.append_nil]
      exact .inr (renamed _ _ _ _ hout answered (by simp) (.inr ⟨.inl rfl, faulty⟩))
    · intro j₃ l₃ answered faulty
      exact .inr (renamed _ _ _ _ List.nil_prefix answered (by simp) (.inr ⟨.inr rfl, faulty⟩))

def takeOf (sp : SliceParams) (r : Request) : UInt64 :=
  if bounded sp.policy then min sp.quantum (r.bytes - r.byteOffset) else r.bytes - r.byteOffset

/-- What the peer has written beyond the bytes received, once it has been greeted. -/
def stream (fd : Int) (j : Job) : Bytes :=
  (j.os.peer fd (j.os.sent fd ++ greeting j.req)).drop (j.os.recvd fd).length

structure Took (fd : Int) (sp : SliceParams) (t : Int) (i : Nat) (stored : Bytes) (j : Job)
    (part got : Bytes) (j' : Job) (l : List Event) : Prop where
  again : j.req.started = true → t = j.req.fileFd ∧ j.os.files.names (tempPath j.req) = some i
  held : Held (tempPath j.req) t i (stored ++ part) j.os.files j'.os.files
  desc : 0 ≤ t
  talks : Talks fd got (greeting j.req) j.os j'.os
  arrived : got <+: stream fd j
  bytes : part ++ j'.req.leftover = j.req.leftover ++ got
  req : j'.req = { j.req with
    rounds := j.req.rounds + 1
    leftover := j'.req.leftover
    byteOffset := j.req.byteOffset + UInt64.ofNat part.length
    tmpPath := tempPath j.req
    fileFd := t
    started := true }
  length : part.length = (takeOf sp j.req).toNat
  clean : Clean l
  log : ∃ ws, Writing t part ws ∧ fileLog l = opening j.req t ++ ws

/-- The round has ended early, and the temp file is still there and open. -/
structure Broken (fd : Int) (sp : SliceParams) (stored : Bytes) (j j' : Job) (l : List Event) :
    Prop where
  held : ∃ t i part, Held (tempPath j.req) t i (stored ++ part) j.os.files j'.os.files ∧ 0 ≤ t ∧
    j'.req.fileFd = t
  talks : ∃ got out, Talks fd got out j.os j'.os ∧
    ∃ reason ∈ putErrors, out <+: greeting j.req ++ formatErr reason
  tmpPath : j'.req.tmpPath = tempPath j.req
  renames : renamesOf l = []
  short : Clean l → j.req.leftover.length + (stream fd j).length < (takeOf sp j.req).toNat

def counted (j : Job) : Job := { j with req := { j.req with rounds := j.req.rounds + 1 } }

inductive PutRound (fd : Int) (sp : SliceParams) (stored : Bytes) (j : Job) :
    Except Fault SliceResult → Job → List Event → Prop
  | refused {v : Except Fault SliceResult} {j' : Job} {l : List Event} :
      v = .ok .failed ∨ v = .error .thrown → stored = [] →
      Refused fd (counted j) j' l →
      PutRound fd sp stored j v j' l
  | broken {v : Except Fault SliceResult} {j' : Job} {l : List Event} :
      v = .ok .failed ∨ v = .error .thrown → Broken fd sp stored j j' l → PutRound fd sp stored j v j' l
  | preempted {t : Int} {i : Nat} {part got : Bytes} {j' : Job} {l : List Event} :
      Took fd sp t i stored j part got j' l → j'.req.byteOffset < j'.req.bytes →
      PutRound fd sp stored j (.ok .preempted) j' l
  | unrenamed {t : Int} {i : Nat} {part got : Bytes} {v : Except Fault SliceResult} {j₁ j' : Job}
      {l₁ l₂ : List Event} : v = .ok .failed ∨ v = .error .thrown →
      Took fd sp t i stored j part got j₁ l₁ → ¬ j₁.req.byteOffset < j₁.req.bytes →
      Unrenamed fd (tempPath j.req) t i (stored ++ part) j.os.files j₁ j' l₂ →
      PutRound fd sp stored j v j' (l₁ ++ l₂)
  | renamed {t : Int} {i : Nat} {part got : Bytes} {v : Except Fault SliceResult} {j₁ j' : Job}
      {l₁ l₂ : List Event} :
      Took fd sp t i stored j part got j₁ l₁ → ¬ j₁.req.byteOffset < j₁.req.bytes →
      Renamed fd (tempPath j.req) t i (stored ++ part) j.os.files j₁ v j' l₂ →
      PutRound fd sp stored j v j' (l₁ ++ l₂)

section Rounds
variable {fd : Int} {sp : SliceParams} {t : Int} {i : Nat} {stored : Bytes} {j j' : Job} {l : List Event}

theorem Unanswered.broken (h : Unanswered fd t i (counted j) j' l) :
    Broken fd sp [] j j' l := by
  obtain ⟨out, hout, talks⟩ := h.talks
  refine ⟨⟨t, i, [], h.held, h.desc, by rw [h.req]⟩, ⟨[], out, talks, _, List.mem_cons_self, ?_⟩,
    by rw [h.req]; rfl, ?_, by simp [h.faulty]⟩
  · have first : ¬ j.req.started = true := by simpa [counted] using h.fresh
    rw [greeting, if_neg first]
    exact hout.trans (List.prefix_append _ _)
  · rw [← renamesOf_fileLog, h.log]
    rfl

theorem Begun.arrived (h : Begun fd t i stored (counted j) j' l) : j'.os.arrived fd = stream fd j := by
  rw [Os.arrived, h.talks.peer, h.talks.sent_self, h.talks.recvd_self, List.append_nil]
  rfl

theorem renamesOf_opening (r : Request) (t : Int) : renamesOf (opening r t) = [] := by
  unfold opening
  split <;> rfl

theorem Begun.renames (h : Begun fd t i stored (counted j) j' l) : renamesOf l = [] := by
  rw [← renamesOf_fileLog, h.log, renamesOf_opening]

theorem Begun.broken (h : Begun fd t i stored (counted j) j' l) {j'' : Job} {l' : List Event}
    (req : j''.req = j'.req) (idles : Idles j'.os j''.os l') (faulty : ¬ Clean l') :
    Broken fd sp stored j j'' (l ++ l') := by
  refine ⟨⟨t, i, [], by simpa using idles.files ▸ h.held, h.desc, by rw [req, h.req]⟩,
    ⟨[], greeting j.req, h.talks.then_quiet (idles.still.talks fd), _, List.mem_cons_self,
      List.prefix_append _ _⟩, by rw [req, h.req]; rfl, ?_, by simp [faulty]⟩
  rw [renamesOf_append, renames_of_quiet idles.fileLog, h.renames]
  rfl

theorem PutFails.broken {j₁ j₂ j₃ : Job} {l₁ l₂ l₃ : List Event}
    (begun : Begun fd t i stored (counted j) j₁ l₁) (req : j₂.req = j₁.req) (idles : Idles j₁.os j₂.os l₂)
    (h : PutFails fd (tempPath j.req) t i stored j.os.files (takeOf sp j.req).toNat j₂ j₃ l₃) :
    Broken fd sp stored j j₃ (l₁ ++ (l₂ ++ l₃)) := by
  obtain ⟨part, held⟩ := h.held
  obtain ⟨got, out, talks, reason, hreason, hout⟩ := h.talks
  obtain ⟨leftover, byteOffset, same⟩ := h.req
  have talks₂ := begun.talks.then_quiet (idles.still.talks fd)
  refine ⟨⟨t, i, part, held, begun.desc, by rw [same, req, begun.req]⟩,
    ⟨_, _, talks₂.trans talks, reason, hreason, ?_⟩, by rw [same, req, begun.req]; rfl, ?_, ?_⟩
  · exact (List.prefix_append_right_inj (greeting j.req)).mpr hout
  · rw [renamesOf_append, renamesOf_append, begun.renames, renames_of_quiet idles.fileLog, h.renames]
    rfl
  · intro clean
    simp only [clean_append] at clean
    have short := h.short clean.2.2
    have leftover : j₂.req.leftover = j.req.leftover := by rw [req, begun.req]; rfl
    rwa [(idles.still.talks fd).arrived, List.length_nil, List.drop_zero, begun.arrived, leftover] at short

theorem Receiving.took {j₁ j₂ j₃ : Job} {l₁ l₂ l₃ : List Event} {part got : Bytes}
    (begun : Begun fd t i stored (counted j) j₁ l₁) (req : j₂.req = j₁.req) (idles : Idles j₁.os j₂.os l₂)
    (clean : Clean l₂)
    (h : Receiving fd (tempPath j.req) t i stored j.os.files j₂ part got j₃ l₃)
    (length : part.length = (takeOf sp j.req).toNat) :
    Took fd sp t i stored j part got j₃ (l₁ ++ (l₂ ++ l₃)) := by
  have talks₂ := begun.talks.then_quiet (idles.still.talks fd)
  have leftover : j₂.req.leftover = j.req.leftover := by rw [req, begun.req]; rfl
  have arrived := h.arrived
  have bytes := h.bytes
  rw [(idles.still.talks fd).arrived, List.length_nil, List.drop_zero, begun.arrived] at arrived
  rw [leftover] at bytes
  have talks : Talks fd ([] ++ got) (greeting j.req ++ []) j.os j₃.os := talks₂.trans h.talks
  refine ⟨begun.again, h.held, begun.desc, by simpa using talks, arrived, bytes, ?_, length,
    by simp [begun.clean, clean, h.clean], _, h.writing, ?_⟩
  · rw [h.req, req, begun.req]
    rfl
  · rw [fileLog_append, fileLog_append, begun.log, idles.fileLog]
    rfl

theorem Took.renames {part got : Bytes} (h : Took fd sp t i stored j part got j' l) :
    renamesOf l = [] := by
  obtain ⟨ws, writing, log⟩ := h.log
  rw [← renamesOf_fileLog, log, renamesOf_append, renamesOf_opening, writing.renames]
  rfl

end Rounds

theorem servePut_spec (fd : Int) (sp : SliceParams) {stored : Bytes} {j : Job} (ready : PutReady stored j) :
    wp (servePut fd sp) j fun v j' l => PutRound fd sp stored j v j' l := by
  rw [servePut, wp_setRequest_bind]
  have ready' : PutReady stored (counted j) := by
    cases ready with
    | fresh hstored started tmpPath fileFd => exact .fresh hstored started tmpPath fileFd
    | begun started tmpPath fileFd names data descs =>
      exact .begun started tmpPath fileFd names data descs
  refine wp_seq (beginPut_spec fd ready') ?_ ?_
  · rintro ok j₁ l₁ (⟨hok, t, i, begun⟩ | ⟨hok, hstored, ended⟩)
    · cases hok
      rw [if_pos rfl, wp_request_bind]
      have htake : (if bounded sp.policy = true then min sp.quantum (j₁.req.bytes - j₁.req.byteOffset)
          else j₁.req.bytes - j₁.req.byteOffset) = takeOf sp j.req := by
        rw [begun.req]
        rfl
      simp only [htake]
      refine wp_seq (onOs_spec (alloc_spec j₁.os)) ?_ ?_
      · rintro ⟨⟩ j₂ l₂ ⟨hreq₂, idles, ⟨-, clean₂⟩ | ⟨h, -⟩⟩
        · have held₂ : Held (tempPath j.req) t i stored j.os.files j₂.os.files := idles.files ▸ begun.held
          have fileFd : j₂.req.fileFd = t := by rw [hreq₂, begun.req]
          refine wp_seq (putLoop_spec fd (takeOf sp j.req) held₂ fileFd) ?_ ?_
          · rintro ok j₃ l₃ post
            cases ok with
            | false =>
              rw [if_neg (by simp), wp_pure, List.append_nil]
              exact .broken (.inl rfl) (PutFails.broken begun hreq₂ idles post)
            | true =>
              obtain ⟨part, got, receiving, length⟩ := post
              have took := receiving.took begun hreq₂ idles clean₂ length
              rw [if_pos rfl, wp_request_bind]
              split
              · rename_i unfinished
                rw [wp_pure, List.append_nil]
                exact .preempted took unfinished
              · rename_i finished
                have tmpPath : j₃.req.tmpPath = tempPath j.req := by rw [took.req]
                have fileFd : j₃.req.fileFd = t := by rw [took.req]
                refine wp_mono (installPut_spec fd took.held fileFd tmpPath) ?_
                rintro v j₄ l₄ (⟨hv, unrenamed⟩ | renamed)
                · simpa only [List.append_assoc] using
                    PutRound.unrenamed hv took finished unrenamed
                · simpa only [List.append_assoc] using PutRound.renamed took finished renamed
          · rintro e j₃ l₃ ⟨rfl, fails⟩
            exact .broken (.inr rfl) (PutFails.broken begun hreq₂ idles fails)
        · cases h
      · rintro e j₂ l₂ ⟨hreq₂, idles, ⟨h, -⟩ | ⟨h, faulty⟩⟩
        · cases h
        · cases h
          exact .broken (.inr rfl) (begun.broken hreq₂ idles faulty)
    · have hfalse : ok = false := by simpa using hok
      subst hfalse hstored
      rw [if_neg (by simp), wp_pure, List.append_nil]
      rcases ended with refused | ⟨t, i, unanswered⟩
      · exact .refused (.inl rfl) rfl refused
      · exact .broken (.inl rfl) unanswered.broken
  · rintro e j₁ l₁ (⟨h, -⟩ | ⟨he, hstored, ended⟩)
    · cases h
    · have thrown : (Except.error e : Except Fault SliceResult) = .error .thrown := by
        rcases he with h | h
        · cases h
        · cases h
          rfl
      subst hstored
      rcases ended with refused | ⟨t, i, unanswered⟩
      · exact .refused (.inr thrown) rfl refused
      · exact .broken (.inr thrown) unanswered.broken

end LinkScheduling
