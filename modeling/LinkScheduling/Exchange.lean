import LinkScheduling.Transfer

/-! What the exchanges over a socket do whatever comes of their calls: how much `send_all`
and `read_exact` have moved when they end, and that they are clean exactly when they
succeed or run into the end of the stream. -/

namespace LinkScheduling
open Effect

/-- Between the worlds `a` and `b` the bytes `got` were received and `out` sent on `fd`. -/
structure Talks (fd : Int) (got out : Bytes) (a b : Os) : Prop where
  peer : b.peer = a.peer
  recvd : b.recvd = Function.update a.recvd fd (a.recvd fd ++ got)
  sent : b.sent = Function.update a.sent fd (a.sent fd ++ out)

namespace Talks
variable {fd fd' : Int} {got out got' out' : Bytes} {a b c : Os}

theorem refl (fd : Int) (a : Os) : Talks fd [] [] a a := ⟨rfl, by simp, by simp⟩

theorem answered (fd : Int) (a : Os) : Talks fd [] [] a a.answered := ⟨rfl, by simp, by simp⟩

theorem trans (h : Talks fd got out a b) (h' : Talks fd got' out' b c) :
    Talks fd (got ++ got') (out ++ out') a c where
  peer := h'.peer.trans h.peer
  recvd := by rw [h'.recvd, h.recvd]; simp
  sent := by rw [h'.sent, h.sent]; simp

theorem then_quiet (h : Talks fd got out a b) (h' : Talks fd [] [] b c) : Talks fd got out a c := by
  simpa using h.trans h'

theorem sent_self (h : Talks fd got out a b) : b.sent fd = a.sent fd ++ out := by rw [h.sent]; simp

theorem recvd_self (h : Talks fd got out a b) : b.recvd fd = a.recvd fd ++ got := by
  rw [h.recvd]
  simp

theorem sent_other (h : Talks fd got out a b) (hne : fd' ≠ fd) : b.sent fd' = a.sent fd' := by
  rw [h.sent]
  simp [hne]

theorem recvd_other (h : Talks fd got out a b) (hne : fd' ≠ fd) : b.recvd fd' = a.recvd fd' := by
  rw [h.recvd]
  simp [hne]

theorem arrived (h : Talks fd got [] a b) : b.arrived fd = (a.arrived fd).drop got.length := by
  rw [Os.arrived, Os.arrived, h.peer, h.sent_self, h.recvd_self, List.append_nil, List.drop_drop,
    List.length_append]

end Talks

def Event.onFile : Event → Bool
  | .wrote .. | .writeFailed .. | .opened .. | .openFailed _ | .renamed .. | .renameFailed ..
  | .unlinked _ | .unlinkFailed _ => true
  | _ => false

def fileLog (l : List Event) : List Event := l.filter Event.onFile

@[simp] theorem fileLog_nil : fileLog [] = [] := rfl

@[simp] theorem fileLog_cons (e : Event) (l : List Event) :
    fileLog (e :: l) = if e.onFile then e :: fileLog l else fileLog l := List.filter_cons ..

@[simp] theorem fileLog_append (l l' : List Event) : fileLog (l ++ l') = fileLog l ++ fileLog l' :=
  List.filter_append ..

@[simp] theorem wp_call {α : Type} (f : Verdict → Os → Outcome Fault Os Event α) (os : Os)
    (Q : Except Fault α → Os → List Event → Prop) :
    wp (call f) os Q ↔ wp (f os.verdict : Sys α) os.answered Q := Iff.rfl

structure Still (a b : Os) : Prop where
  peer : b.peer = a.peer
  recvd : b.recvd = a.recvd
  sent : b.sent = a.sent

theorem Still.refl (a : Os) : Still a a := ⟨rfl, rfl, rfl⟩

theorem Still.trans {a b c : Os} (h : Still a b) (h' : Still b c) : Still a c :=
  ⟨h'.peer.trans h.peer, h'.recvd.trans h.recvd, h'.sent.trans h.sent⟩

theorem Still.talks {a b : Os} (h : Still a b) (fd : Int) : Talks fd [] [] a b :=
  ⟨h.peer, by simp [h.recvd], by simp [h.sent]⟩

structure Idles (a b : Os) (l : List Event) : Prop where
  files : b.files = a.files
  still : Still a b
  fileLog : fileLog l = []

theorem alloc_spec (os : Os) : wp alloc os fun v os' l => Idles os os' l ∧
    (v = .ok () ∧ Clean l ∨ v = .error .thrown ∧ ¬ Clean l) := by
  rw [alloc, wp_call]
  cases os.verdict with
  | fail e => exact ⟨⟨rfl, ⟨rfl, rfl, rfl⟩, rfl⟩, .inr ⟨rfl, by simp [Event.faulty]⟩⟩
  | grant most => exact ⟨⟨rfl, ⟨rfl, rfl, rfl⟩, rfl⟩, .inl ⟨rfl, clean_nil⟩⟩

theorem send_spec {data : Bytes} (hdata : data ≠ []) (fd : Int) (os : Os) :
    wp (send fd data) os fun v os' l => ∃ r, v = .ok r ∧ os'.files = os.files ∧ fileLog l = [] ∧
      ((∃ e, r = .error e ∧ Talks fd [] [] os os' ∧ (e = .intr ↔ Clean l) ∧
          os'.script.length < os.script.length) ∨
        ∃ k, r = .ok (k + 1) ∧ k < data.length ∧ Talks fd [] (data.take (k + 1)) os os' ∧ Clean l ∧
          os'.script.length ≤ os.script.length) := by
  rw [send, wp_call]
  cases hv : os.verdict with
  | fail e =>
    refine ⟨_, rfl, rfl, rfl, .inl ⟨e, rfl, Talks.answered fd os, ?_, Os.answered_length_lt hv⟩⟩
    simp [Event.faulty]
  | grant most =>
    have moved := amount_pos (List.length_pos_iff.mpr hdata) most
    have bound := amount_le data.length most
    obtain ⟨k, hk⟩ := Nat.exists_eq_add_one_of_ne_zero (Nat.ne_of_gt moved)
    have length : (data.take (amount data.length most)).length = k + 1 := by
      rw [List.length_take]
      omega
    refine ⟨_, rfl, rfl, rfl, .inr ⟨k, by rw [length], by omega, ?_, by simp [Event.faulty],
      os.answered_length_le⟩⟩
    rw [← hk]
    exact ⟨rfl, by simp, rfl⟩

/-- How a `send_all` of `data` ends: it is clean exactly when it has sent all. -/
structure SentAll (fd : Int) (data : Bytes) (a : Os) (ok : Bool) (b : Os) (l : List Event) : Prop where
  files : b.files = a.files
  fileLog : fileLog l = []
  clean : ok = true ↔ Clean l
  sent : ∃ out, out <+: data ∧ (ok = true → out = data) ∧ Talks fd [] out a b

theorem sendAll_spec (fd : Int) (data : Bytes) (os : Os) :
    wp (sendAll fd data) os fun v os' l => ∃ ok, v = .ok ok ∧ SentAll fd data os ok os' l := by
  rw [sendAll, wp_emit_bind, wp_get_bind]
  refine wp_loop
    (fun sent s l => sent ≤ data.length ∧ s.files = os.files ∧ fileLog l = [] ∧ Clean l ∧
      Talks fd [] (data.take sent) os s)
    (fun sent s => data.length - sent + s.script.length) ?_ _ 0 os
    ⟨Nat.zero_le _, rfl, rfl, clean_nil, by simpa using Talks.refl fd os⟩ (by omega)
  rintro sent s l ⟨hle, hfiles, hlog, hclean, htalks⟩
  unfold sendTurn
  split
  · rename_i hlt
    have rest : data.drop sent ≠ [] := by
      rw [← List.length_pos_iff, List.length_drop]
      omega
    refine wp_seq (send_spec rest fd s) ?_ (by simp)
    rintro r s' l' ⟨r', hr, hfiles', hlog', ⟨e, rfl, talks, interrupted, shorter⟩ |
      ⟨k, rfl, hk, talks, hclean', script⟩⟩
    · cases hr
      have talks' := htalks.then_quiet talks
      cases e with
      | intr =>
        rw [wp_pure, List.append_nil]
        exact ⟨⟨hle, hfiles'.trans hfiles, by simp [hlog, hlog'],
          by simpa [hclean] using interrupted, talks'⟩, by omega⟩
      | _ =>
        simp only [wp_pure, List.append_nil]
        refine ⟨false, rfl, hfiles'.trans hfiles, ?_, ?_, _, List.take_prefix sent data, by simp, talks'⟩
        · change fileLog (l ++ l') = []
          simp [hlog, hlog']
        · simpa [Event.faulty, hclean] using interrupted
    · cases hr
      rw [List.length_drop] at hk
      have taken : data.take sent ++ (data.drop sent).take (k + 1) = data.take (sent + (k + 1)) :=
        List.take_add.symm
      simp only [wp_pure, List.append_nil]
      exact ⟨⟨by omega, hfiles'.trans hfiles, by simp [hlog, hlog'], by simp [hclean, hclean'],
        taken ▸ htalks.trans talks⟩, by omega⟩
  · have hsent : data.take sent = data := List.take_of_length_le (by omega)
    rw [hsent] at htalks
    rw [wp_pure, List.append_nil]
    refine ⟨true, rfl, hfiles, ?_, ?_, data, List.prefix_refl _, fun _ => rfl, htalks⟩
    · exact hlog
    · simpa [Event.faulty] using hclean

theorem sendError_spec (fd : Int) (reason : Bytes) (os : Os) :
    wp (sendError fd reason) os fun v os' l => (v = .ok () ∨ v = .error .thrown ∧ ¬ Clean l) ∧
      os'.files = os.files ∧ fileLog l = [] ∧
        ∃ out, out <+: formatErr reason ∧ Talks fd [] out os os' := by
  refine wp_seq (alloc_spec os) ?_ ?_
  · rintro ⟨⟩ s l ⟨idles, -⟩
    refine wp_seq (sendAll_spec fd (formatErr reason) s) ?_ (by simp)
    rintro r s' l' ⟨ok, hr, sentAll⟩
    obtain ⟨out, hout, -, talks⟩ := sentAll.sent
    refine ⟨.inl rfl, sentAll.files.trans idles.files, ?_, out, hout, ?_⟩
    · change fileLog (l ++ (l' ++ [])) = []
      simp [idles.fileLog, sentAll.fileLog]
    · exact (idles.still.talks fd).trans talks
  · rintro e s l ⟨idles, ⟨h, -⟩ | h⟩
    · cases h
    · exact ⟨.inr h, idles.files, idles.fileLog, [], List.nil_prefix, idles.still.talks fd⟩

theorem recv_spec (fd : Int) {n : Nat} (hn : 0 < n) (os : Os) :
    wp (recv fd n) os fun v os' l => ∃ r, v = .ok r ∧ os'.files = os.files ∧ fileLog l = [] ∧
      ((∃ e, r = .error e ∧ Talks fd [] [] os os' ∧ ¬ Clean l) ∨
        ∃ part, r = .ok part ∧ part.length ≤ n ∧ part <+: os.arrived fd ∧
          (part = [] → os.arrived fd = []) ∧ Talks fd part [] os os' ∧ Clean l) := by
  unfold wp recv call
  cases os.verdict with
  | fail e =>
    exact ⟨_, rfl, rfl, rfl, .inl ⟨e, rfl, Talks.answered fd os, by simp [Event.faulty]⟩⟩
  | grant most =>
    have bound := amount_le ((os.arrived fd).take n).length most
    refine ⟨_, rfl, rfl, rfl, .inr ⟨_, rfl, ?_, ?_, ?_, ⟨rfl, rfl, by simp⟩, by simp [Event.faulty]⟩⟩
    · simp only [List.length_take]
      omega
    · exact (List.take_prefix _ _).trans (List.take_prefix _ _)
    · intro hpart
      by_contra harrived
      have waiting := List.length_pos_iff.mpr harrived
      have limit : 0 < ((os.arrived fd).take n).length := by
        rw [List.length_take]
        omega
      have moved := amount_pos limit most
      have none := congrArg List.length hpart
      simp only [List.length_take, List.length_nil, Os.answered_arrived] at none moved
      omega

theorem armed_spec (fd : Int) (timeoutMs : Int) (deadline : Nat) (os : Os) :
    wp (armed fd timeoutMs deadline) os fun v os' l => Idles os os' l ∧
      ((v = .ok true ∧ Clean l) ∨ (v = .ok false ∧ ¬ Clean l)) := by
  unfold armed
  split
  · simp only [wp, armRemaining]
    split
    · exact ⟨⟨rfl, Still.refl os, rfl⟩, .inr ⟨rfl, by simp [Event.faulty]⟩⟩
    · exact ⟨⟨rfl, ⟨rfl, rfl, rfl⟩, rfl⟩, .inl ⟨rfl, by simp [Event.faulty]⟩⟩
  · exact ⟨⟨rfl, Still.refl os, rfl⟩, .inl ⟨rfl, clean_nil⟩⟩

/-- How a `read_exact` of `n` bytes ends: the buffer and what is left of `leftover` are what
was left over before and what has been received. It fails only with a fault or at the end of
what the peer has written. -/
structure ReadsExactly (fd : Int) (leftover : Bytes) (n : Nat) (a : Os) (x : ReadExact) (b : Os)
    (l : List Event) : Prop where
  files : b.files = a.files
  fileLog : fileLog l = []
  moved : ∃ got, x.out ++ x.leftover = leftover ++ got ∧ got <+: a.arrived fd ∧
    Talks fd got [] a b ∧ (x.ok = false → Clean l → got = a.arrived fd)
  leftover_le : x.leftover = leftover.drop n
  full : x.ok = true → x.out.length = n ∧ Clean l
  short : x.ok = false → x.out.length < n

theorem readExact_spec (fd : Int) (leftover : Bytes) (n : Nat) (timeoutMs : Int) (os : Os) :
    wp (readExact fd leftover n timeoutMs) os fun v os' l =>
      ∃ x, v = .ok x ∧ ReadsExactly fd leftover n os x os' l := by
  rw [readExact, wp_get_bind]
  refine wp_seq (P := fun v s l => ∃ x : Bool × Bytes, v = .ok x ∧
    ReadsExactly fd leftover n os ⟨x.1, x.2, leftover.drop n⟩ s l) ?_ ?_ (by simp)
  · refine wp_loop
      (fun out s l => out.length ≤ n ∧ s.files = os.files ∧ fileLog l = [] ∧ Clean l ∧
        ∃ got, out = leftover.take n ++ got ∧ (got = [] ∨ leftover.length < n) ∧
          got <+: os.arrived fd ∧ Talks fd got [] os s)
      (fun out _ => n - out.length) ?_ _ _ os
      ⟨by simp, rfl, rfl, clean_nil, [], by simp, .inl rfl, List.nil_prefix, Talks.refl fd os⟩ (by omega)
    rintro out s l ⟨hle, hfiles, hlog, hclean, got, hout, hgot, harrived, htalks⟩
    have moved : out ++ leftover.drop n = leftover ++ got := by
      rw [hout]
      rcases hgot with rfl | hshort
      · simp
      · simp [List.take_of_length_le (Nat.le_of_lt hshort), List.drop_eq_nil_of_le (Nat.le_of_lt hshort)]
    unfold exactTurn
    split
    · rename_i hlt
      have hshort : leftover.length < n := by
        have := congrArg List.length hout
        rw [List.length_append, List.length_take] at this
        omega
      refine wp_seq (armed_spec fd timeoutMs _ s) ?_ (by simp)
      rintro ok s₁ l₁ ⟨idles, armed⟩
      have files₁ := idles.files.trans hfiles
      have talks₁ := htalks.then_quiet (idles.still.talks fd)
      split
      · rename_i hok
        have hclean₁ : Clean l₁ := by
          rcases armed with ⟨-, h⟩ | ⟨h, -⟩
          · exact h
          · simp [hok] at h
        refine wp_seq (recv_spec fd (by omega) s₁) ?_ (by simp)
        rintro r s₂ l₂ ⟨r', hr, hfiles₂, hlog₂, ⟨e, rfl, talks, faulty⟩ |
          ⟨part, rfl, hpart, hprefix, hnone, talks, hclean₂⟩⟩
        · cases hr
          simp only [wp_pure, List.append_nil]
          exact ⟨_, rfl, hfiles₂.trans files₁, by simp [hlog, idles.fileLog, hlog₂],
            ⟨got, moved, harrived, talks₁.then_quiet talks, by simp [faulty]⟩, rfl, by simp,
            fun _ => hlt⟩
        · cases hr
          rw [talks₁.arrived] at hprefix hnone
          cases part with
          | nil =>
            simp only [wp_pure, List.append_nil]
            refine ⟨_, rfl, hfiles₂.trans files₁, by simp [hlog, idles.fileLog, hlog₂],
              ⟨got, moved, harrived, talks₁.then_quiet talks, fun _ _ => ?_⟩, rfl, by simp,
              fun _ => hlt⟩
            exact harrived.eq_of_length_le (List.drop_eq_nil_iff.mp (hnone rfl))
          | cons b part =>
            simp only [wp_pure, List.append_nil]
            obtain ⟨t, ht⟩ := harrived
            rw [← ht, List.drop_left] at hprefix
            refine ⟨⟨?_, hfiles₂.trans files₁, by simp [hlog, idles.fileLog, hlog₂],
              by simp [hclean, hclean₁, hclean₂], got ++ b :: part, by rw [hout, List.append_assoc],
              .inr hshort, ?_, talks₁.trans talks⟩, ?_⟩
            · rw [List.length_append]
              omega
            · rw [← ht]
              exact (List.prefix_append_right_inj got).mpr hprefix
            · rw [List.length_append, List.length_cons]
              omega
      · rename_i hok
        have faulty : ¬ Clean l₁ := by
          rcases armed with ⟨h, -⟩ | ⟨-, h⟩
          · simp [hok] at h
          · exact h
        simp only [wp_pure, List.append_nil]
        exact ⟨_, rfl, files₁, by simp [hlog, idles.fileLog],
          ⟨got, moved, harrived, talks₁, by simp [faulty]⟩, rfl, by simp, fun _ => hlt⟩
    · rename_i hge
      rw [wp_pure, List.append_nil]
      refine ⟨_, rfl, hfiles, hlog, ⟨got, moved, harrived, htalks, by simp⟩, rfl, fun _ => ⟨?_, hclean⟩,
        by simp⟩
      exact Nat.le_antisymm hle (Nat.le_of_not_lt hge)
  · rintro x s l ⟨y, hy, reads⟩
    cases hy
    rw [wp_pure, List.append_nil]
    exact ⟨_, rfl, reads⟩

section Jobs
variable {α : Type}

theorem wp_onOs (x : Sys α) (j : Job) (Q : Except Fault α → Job → List Event → Prop) :
    wp (onOs x) j Q ↔ wp x j.os fun v os l => Q v { j with os := os } l := Iff.rfl

theorem wp_request_bind (f : Request → Slice α) (j : Job)
    (Q : Except Fault α → Job → List Event → Prop) :
    wp (request >>= f) j Q ↔ wp (f j.req) j Q := Iff.rfl

theorem wp_setRequest_bind (g : Request → Request) (f : Unit → Slice α) (j : Job)
    (Q : Except Fault α → Job → List Event → Prop) :
    wp (setRequest g >>= f) j Q ↔ wp (f ()) { j with req := g j.req } Q := Iff.rfl

theorem wp_close_bind (t : Int) (f : Unit → Slice α) (j : Job)
    (Q : Except Fault α → Job → List Event → Prop) :
    wp (onOs (close t) >>= f) j Q ↔ wp (f ()) ⟨j.req, { j.os with files := j.os.files.close t }⟩
      fun v j' l => Q v j' (.closed t :: l) := Iff.rfl

theorem onOs_spec {x : Sys α} {j : Job} {P : Except Fault α → Os → List Event → Prop}
    (h : wp x j.os P) : wp (onOs x) j fun v j' l => j'.req = j.req ∧ P v j'.os l := ⟨rfl, h⟩

end Jobs

end LinkScheduling
