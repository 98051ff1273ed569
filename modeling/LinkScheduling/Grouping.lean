import LinkScheduling.Rounds

/-! The buffers that a round of a GET hands to `send_all`, as a function of the lines it sends
and of `--p`. The grouping leaves no trace elsewhere: two runs that differ in `--p` send the
same bytes in the same rounds and keep the same accounts. -/

namespace LinkScheduling
open Effect Lines

/-- A part of what a round writes: lines in one buffer, or a line that is streamed. -/
inductive Part
  | group (ls : List Bytes)
  | streamed (line : Bytes)

/-- Lines of at most 64 KiB in groups of `p`. A group is cut short by a longer line, which is
streamed, or by the end; `pending` are the lines of the group being filled. -/
def groupsFrom (p : Nat) (pending : List Bytes) : List Bytes → List Part
  | [] => if pending = [] then [] else [.group pending]
  | line :: rest =>
    if 65536 < line.length then
      (if pending = [] then [] else [.group pending]) ++ .streamed line :: groupsFrom p [] rest
    else if p ≤ pending.length + 1 then .group (pending ++ [line]) :: groupsFrom p [] rest
    else groupsFrom p (pending ++ [line]) rest

/-- The parts of a round. An A14 line is streamed whatever its length. -/
def partsOf (sp : SliceParams) (sent : List Bytes) : List Part :=
  if longFirst sp sent then sent.map .streamed else groupsFrom (max 1 sp.pLines).toNat [] sent

/-- A group is handed over in one buffer, a streamed line in pieces of at most 64 KiB. -/
inductive Handing : List Part → List Bytes → Prop
  | nil : Handing [] []
  | group {ls : List Bytes} {parts : List Part} {hs : List Bytes} : Handing parts hs →
      Handing (.group ls :: parts) (ls.flatten :: hs)
  | streamed {line : Bytes} {pieces hs : List Bytes} {parts : List Part} : pieces.flatten = line →
      (∀ x ∈ pieces, x.length ≤ 65536) → Handing parts hs → Handing (.streamed line :: parts) (pieces ++ hs)

theorem Handing.append {parts parts' : List Part} {hs hs' : List Bytes} (h : Handing parts hs)
    (h' : Handing parts' hs') : Handing (parts ++ parts') (hs ++ hs') := by
  induction h with
  | nil => exact h'
  | group _ ih => exact .group ih
  | streamed whole small _ ih =>
    rw [List.append_assoc]
    exact .streamed whole small ih

theorem Handing.single {line : Bytes} {pieces : List Bytes} (whole : pieces.flatten = line)
    (small : ∀ x ∈ pieces, x.length ≤ 65536) : Handing [.streamed line] pieces := by
  rw [← List.append_nil pieces]
  exact .streamed whole small .nil

theorem group_of_mem (p : Nat) {line : Bytes} (short : line.length ≤ 65536) (ls pending : List Bytes)
    (h : line ∈ pending ++ ls) : ∃ g, .group g ∈ groupsFrom p pending ls ∧ line ∈ g := by
  induction ls generalizing pending with
  | nil =>
    rw [List.append_nil] at h
    rw [groupsFrom, if_neg (List.ne_nil_of_mem h)]
    exact ⟨pending, by simp, h⟩
  | cons first rest ih =>
    rw [groupsFrom]
    split
    · rename_i long
      rcases List.mem_append.mp h with h | h
      · rw [if_neg (List.ne_nil_of_mem h)]
        exact ⟨pending, by simp, h⟩
      · have later : line ∈ [] ++ rest := by
          rcases List.mem_cons.mp h with rfl | h
          · omega
          · exact h
        obtain ⟨g, hg, hline⟩ := ih [] later
        exact ⟨g, by simp [hg], hline⟩
    · have either : line ∈ pending ++ [first] ∨ line ∈ rest := by
        simpa [or_assoc] using h
      split
      · rcases either with h | h
        · exact ⟨pending ++ [first], by simp, h⟩
        · obtain ⟨g, hg, hline⟩ := ih [] h
          exact ⟨g, by simp [hg], hline⟩
      · exact ih (pending ++ [first]) (List.mem_append.mpr either)

theorem Handing.buffer {parts : List Part} {hs : List Bytes} (h : Handing parts hs) {g : List Bytes}
    (hg : .group g ∈ parts) : g.flatten ∈ hs := by
  induction h with
  | nil => simp at hg
  | group _ ih =>
    rcases List.mem_cons.mp hg with same | hg
    · cases same
      exact List.mem_cons_self
    · exact List.mem_cons_of_mem _ (ih hg)
  | streamed _ _ _ ih =>
    rcases List.mem_cons.mp hg with same | hg
    · cases same
    · exact List.mem_append_right _ (ih hg)

theorem Handing.unsplit {sp : SliceParams} {sent hs : List Bytes} (h : Handing (partsOf sp sent) hs)
    (escape : longFirst sp sent = false) {line : Bytes} (hline : line ∈ sent)
    (short : line.length ≤ 65536) : ∃ buffer ∈ hs, line <:+: buffer := by
  rw [partsOf, if_neg (by simp [escape])] at h
  obtain ⟨g, hg, mem⟩ := group_of_mem _ short sent [] hline
  exact ⟨g.flatten, h.buffer hg, List.infix_of_mem_flatten mem⟩

structure Filling (pending : List Bytes) (b : Batch) : Prop where
  data : b.data = pending.flatten
  lines : b.lines = pending.length
  nonempty : ∀ line ∈ pending, line ≠ []

theorem Filling.empty : Filling [] {} := ⟨rfl, rfl, by simp⟩

theorem Filling.data_nil {pending : List Bytes} {b : Batch} (h : Filling pending b) :
    b.data = [] ↔ pending = [] := by
  rw [h.data]
  cases pending with
  | nil => simp
  | cons line rest =>
    have := h.nonempty line List.mem_cons_self
    simp [this]

theorem Filling.flush {pending : List Bytes} {b : Batch} (h : Filling pending b) :
    Handing (if pending = [] then [] else [.group pending]) (if b.data = [] then [] else [b.data]) := by
  by_cases none : pending = []
  · rw [if_pos none, if_pos (h.data_nil.mpr none)]
    exact .nil
  · rw [if_neg none, if_neg (h.data_nil.not.mpr none), h.data]
    exact .group .nil

theorem Emits.parts {p : Int} {b b' : Batch} {line : Bytes} {hs pending : List Bytes}
    (h : Emits p b line b' hs) (filling : Filling pending b) (hline : line ≠ []) :
    ∃ parts pending', Handing parts hs ∧ Filling pending' b' ∧ ∀ rest,
      groupsFrom (max 1 p).toNat pending (line :: rest) = parts ++ groupsFrom (max 1 p).toNat pending' rest := by
  have held := filling.lines
  cases h with
  | stream long whole small =>
    refine ⟨_, [], filling.flush.append (.single whole small), Filling.empty, fun rest => ?_⟩
    rw [groupsFrom, if_pos long]
    simp
  | full short few =>
    refine ⟨[.group (pending ++ [line])], [], ?_, Filling.empty, fun rest => ?_⟩
    · have data : b.data ++ line = (pending ++ [line]).flatten := by simp [filling.data]
      rw [data]
      exact .group .nil
    · rw [groupsFrom, if_neg (by omega), if_pos (by omega)]
      rfl
  | hold short room =>
    refine ⟨[], pending ++ [line], .nil, ⟨?_, ?_, ?_⟩, fun rest => ?_⟩
    · simp [filling.data]
    · simp [filling.lines]
    · intro x hx
      rcases List.mem_append.mp hx with hx | hx
      · exact filling.nonempty x hx
      · rw [List.mem_singleton.mp hx]
        exact hline
    · rw [groupsFrom, if_neg (by omega), if_neg (by omega)]
      rfl

theorem Grouped.parts {p : Int} {sent : List Bytes} {b : Batch} {hs : List Bytes}
    (h : Grouped p sent b hs) (nonempty : ∀ line ∈ sent, line ≠ []) :
    ∃ parts pending, Handing parts hs ∧ Filling pending b ∧ ∀ rest,
      groupsFrom (max 1 p).toNat [] (sent ++ rest) = parts ++ groupsFrom (max 1 p).toNat pending rest := by
  induction h with
  | nil => exact ⟨[], [], .nil, Filling.empty, fun _ => rfl⟩
  | @snoc sent b b' line hs hs' _ emits ih =>
    obtain ⟨parts, pending, handing, filling, front⟩ :=
      ih fun x hx => nonempty x (List.mem_append_left _ hx)
    obtain ⟨parts', pending', handing', filling', next⟩ :=
      emits.parts filling (nonempty line (by simp))
    refine ⟨parts ++ parts', pending', handing.append handing', filling', fun rest => ?_⟩
    rw [List.append_assoc, List.singleton_append, front, next, List.append_assoc]

theorem Writes.handing {sp : SliceParams} {sent hs : List Bytes} (h : Writes sp sent hs)
    (nonempty : ∀ line ∈ sent, line ≠ []) : Handing (partsOf sp sent) hs := by
  cases h with
  | @long line pieces alone whole small =>
    rw [partsOf, if_pos alone]
    exact .single whole small
  | @batched _ b hs short grouped =>
    obtain ⟨parts, pending, handing, filling, front⟩ := grouped.parts nonempty
    have whole := front []
    rw [List.append_nil] at whole
    rw [partsOf, if_neg (by simp [short]), whole]
    exact handing.append filling.flush

/-- The lines that each round sends: those between its offset and the next one's. -/
def sentLines (c : Bytes) : Nat → List Round → List (List Bytes)
  | _, [] => []
  | start, o :: os =>
    lines newline ((c.take o.state.req.byteOffset.toNat).drop start) ::
      sentLines c o.state.req.byteOffset.toNat os

theorem lines_middle {c : Bytes} {before sent rest : List Bytes}
    (h : lines newline c = before ++ (sent ++ rest)) : lines newline sent.flatten = sent := by
  have tail := lines_suffix h
  by_cases last : rest = []
  · rwa [last, List.append_nil] at tail
  · have here := (isBoundary_of_front tail last).lines_split
    rw [tail, List.flatten_append, List.take_left, List.drop_left,
      lines_suffix (h.trans (List.append_assoc ..).symm)] at here
    exact (List.append_cancel_right here).symm

section Round
variable {fd : Int} {sp : SliceParams} {c : Bytes} {before ls : List Bytes} {j j' : Job}
  {res : SliceResult} {l : List Event}

theorem GetRound.sentLines (round : GetRound fd sp c before ls j res j' l) (serving : Serving c before ls j) :
    lines newline ((c.take j'.req.byteOffset.toNat).drop j.req.byteOffset.toNat) =
      (roundOf sp j.req.deficit ls).1 := by
  have cut := serving.cut
  rw [← roundOf_append sp j.req.deficit ls] at cut
  have whole := round.serving.whole
  rw [round.serving.offset, serving.offset]
  conv_lhs => rw [whole]
  rw [List.take_left, List.flatten_append, List.drop_left]
  exact lines_middle cut

theorem GetRound.handing (round : GetRound fd sp c before ls j res j' l) (serving : Serving c before ls j) :
    ∃ hs, handedOf l = headerOf j.req ++ hs ∧ Handing (partsOf sp (roundOf sp j.req.deficit ls).1) hs := by
  obtain ⟨hs, writes, puts⟩ := round.puts
  refine ⟨hs, puts.shows.handed, writes.handing ?_⟩
  intro line hline
  have cut := serving.cut
  rw [← roundOf_append sp j.req.deficit ls] at cut
  exact lines_ne_nil (c := c) (by rw [cut]; simp [hline])

theorem GetRound.bytes (round : GetRound fd sp c before ls j res j' l) :
    (j'.os.sent fd).drop (j.os.sent fd).length =
      (headerOf j.req).flatten ++ (roundOf sp j.req.deficit ls).1.flatten := by
  obtain ⟨hs, writes, puts⟩ := round.puts
  rw [puts.sends.sent_self, List.drop_left, List.flatten_append, writes.bytes]

theorem GetRun.sentLines {rounds : List Round} (run : GetRun fd sp c before ls j rounds)
    (serving : Serving c before ls j) :
    (LinkScheduling.sentLines c j.req.byteOffset.toNat rounds).flatten = ls := by
  induction run with
  | @last before ls j o _ round finished =>
    have split := roundOf_append sp j.req.deficit ls
    rw [finished, List.append_nil] at split
    rw [LinkScheduling.sentLines, round.sentLines serving, LinkScheduling.sentLines]
    simpa using split
  | @more before ls j o os _ round _ _ ih =>
    rw [LinkScheduling.sentLines, round.sentLines serving, List.flatten_cons, ih round.serving]
    exact roundOf_append sp j.req.deficit ls

theorem GetRun.handing {rounds : List Round} (run : GetRun fd sp c before ls j rounds)
    (serving : Serving c before ls j) (k : Nat) {o : Round} {sent : List Bytes} (ho : rounds[k]? = some o)
    (hsent : (LinkScheduling.sentLines c j.req.byteOffset.toNat rounds)[k]? = some sent) :
    ∃ hs, handedOf o.log = (if k = 0 then headerOf j.req else []) ++ hs ∧ Handing (partsOf sp sent) hs := by
  induction run generalizing k with
  | @last before ls j o' _ round finished =>
    cases k with
    | zero =>
      cases ho
      rw [LinkScheduling.sentLines, round.sentLines serving] at hsent
      cases hsent
      exact round.handing serving
    | succ k => simp at ho
  | @more before ls j o' os _ round _ _ ih =>
    rw [LinkScheduling.sentLines] at hsent
    cases k with
    | zero =>
      cases ho
      rw [round.sentLines serving] at hsent
      cases hsent
      exact round.handing serving
    | succ k =>
      have later := ih round.serving k ho hsent
      have greeted : headerOf o'.state.req = [] := by
        rw [round.req]
        rfl
      rw [greeted, ite_self] at later
      exact later

/-- Two rounds with the same result, the same accounts and the same A14 lines. -/
structure SameRound (o o' : Round) : Prop where
  value : o'.value = o.value
  req : o'.state.req = o.state.req
  a14 : a14Of o'.log = a14Of o.log

theorem GetRound.same (p : Int) {o o' : Round} (value : o.value = .ok res) (value' : o'.value = .ok res)
    (round : GetRound fd sp c before ls j res o.state o.log)
    (round' : GetRound fd { sp with pLines := p } c before ls j' res o'.state o'.log)
    (req : j'.req = j.req) : SameRound o o' ∧
      (o'.state.os.sent fd).drop (j'.os.sent fd).length = (o.state.os.sent fd).drop (j.os.sent fd).length := by
  obtain ⟨hs, -, puts⟩ := round.puts
  obtain ⟨hs', -, puts'⟩ := round'.puts
  have bytes' := round'.bytes
  have state' := round'.req
  have a14' := puts'.shows.a14
  rw [req] at bytes' state' a14'
  exact ⟨⟨value'.trans value.symm, state'.trans round.req.symm, a14'.trans puts.shows.a14.symm⟩,
    bytes'.trans round.bytes.symm⟩

theorem GetRun.same (p : Int) {rounds rounds' : List Round} (run : GetRun fd sp c before ls j rounds)
    (run' : GetRun fd { sp with pLines := p } c before ls j' rounds') (req : j'.req = j.req) :
    List.Forall₂ SameRound rounds rounds' ∧ roundBytes fd j' rounds' = roundBytes fd j rounds := by
  induction run generalizing j' rounds' with
  | @last before ls j o value round finished =>
    cases run' with
    | last value' round' _ =>
      obtain ⟨same, bytes⟩ := round.same p value value' round' req
      exact ⟨.cons same .nil, by rw [roundBytes, roundBytes, bytes, roundBytes, roundBytes]⟩
    | more _ _ unfinished' _ =>
      rw [req] at unfinished'
      exact absurd finished unfinished'
  | @more before ls j o os value round unfinished _ ih =>
    cases run' with
    | last _ _ finished' =>
      rw [req] at finished'
      exact absurd finished' unfinished
    | @more _ _ _ o' os' value' round' _ rest' =>
      obtain ⟨same, bytes⟩ := round.same p value value' round' req
      rw [req] at rest'
      obtain ⟨later, bytes'⟩ := ih rest' same.req
      exact ⟨.cons same later, by rw [roundBytes, roundBytes, bytes, bytes']⟩

end Round

/-- A round hands over the parts of the lines it sends, behind the header in the first one, and
the rounds themselves are the same for every `--p`. -/
theorem serveRounds_get_grouping (fd : Int) (sp : SliceParams) {c : Bytes} {j : Job} (h : FreshGet c j)
    (hob : j.Obliging) (hq : bounded sp.policy = true → 0 < sp.quantum.toNat) {fuel : Nat}
    (enough : c.length < fuel) :
    (sentLines c 0 (serveRounds fd sp fuel j)).flatten = lines newline c ∧
    (∀ (k : Nat) (o : Round) (sent : List Bytes), (serveRounds fd sp fuel j)[k]? = some o →
      (sentLines c 0 (serveRounds fd sp fuel j))[k]? = some sent →
      ∃ hs, handedOf o.log = (if k = 0 then [formatOk c.length] else []) ++ hs ∧
        Handing (partsOf sp sent) hs ∧
        (longFirst sp sent = false → ∀ line ∈ sent, line.length ≤ 65536 → ∃ buffer ∈ hs, line <:+: buffer)) ∧
    ∀ (p : Int) (j' : Job), j'.req = j.req → FreshGet c j' → j'.Obliging →
      List.Forall₂ SameRound (serveRounds fd sp fuel j) (serveRounds fd { sp with pLines := p } fuel j') ∧
      roundBytes fd j' (serveRounds fd { sp with pLines := p } fuel j') =
        roundBytes fd j (serveRounds fd sp fuel j) := by
  have run := h.run hob fd hq enough
  have start : j.req.byteOffset.toNat = 0 := by
    rw [h.byteOffset]
    rfl
  have header : headerOf j.req = [formatOk c.length] := by
    rw [headerOf, h.started, h.size]
    rfl
  refine ⟨?_, ?_, ?_⟩
  · rw [← start]
    exact run.sentLines h.serving
  · intro k o sent ho hsent
    rw [← start] at hsent
    rw [← header]
    obtain ⟨hs, handed, handing⟩ := run.handing h.serving k ho hsent
    exact ⟨hs, handed, handing, fun escape line mem short => handing.unsplit escape mem short⟩
  · intro p j' req h' hob'
    have run' := @FreshGet.run c j' h' hob' fd { sp with pLines := p } hq fuel enough
    exact run.same p run' req

theorem serveRounds_get_grouping_single : ∃ rounds rounds' o,
    rounds = serveRounds 7 { policy := .drr, quantum := 2 } 6 (singleGet [102] [97, 98, 10, 99] shortCounts) ∧
      rounds' = serveRounds 7 { policy := .drr, quantum := 2, pLines := 3 } 6 (singleGet [102] [97, 98, 10, 99] []) ∧
      (sentLines [97, 98, 10, 99] 0 rounds).flatten = [[97, 98, 10], [99]] ∧
      rounds[1]? = some o ∧ Handing [.group [[97, 98, 10]], .group [[99]]] (handedOf o.log) ∧
      List.Forall₂ SameRound rounds rounds' ∧
      roundBytes 7 (singleGet [102] [97, 98, 10, 99] []) rounds' =
        roundBytes 7 (singleGet [102] [97, 98, 10, 99] shortCounts) rounds := by
  obtain ⟨lines, buffers, same⟩ := serveRounds_get_grouping 7 { policy := .drr, quantum := 2 }
    (singleGet_fresh [102] shortCounts (by decide)) (shortCounts_obliging [102] [97, 98, 10, 99]) (by decide)
    (by decide : _ < 6)
  have second : (serveRounds 7 { policy := .drr, quantum := 2 } 6
      (singleGet [102] [97, 98, 10, 99] shortCounts)).length = 2 := by decide +kernel
  obtain ⟨o, ho⟩ : ∃ o, (serveRounds 7 { policy := .drr, quantum := 2 } 6
      (singleGet [102] [97, 98, 10, 99] shortCounts))[1]? = some o := ⟨_, List.getElem?_eq_getElem (by rw [second]; decide)⟩
  obtain ⟨hs, handed, handing, -⟩ := buffers 1 o [[97, 98, 10], [99]] ho (by decide +kernel)
  obtain ⟨rounds, bytes⟩ := same 3 (singleGet [102] [97, 98, 10, 99] []) rfl (singleGet_fresh [102] [] (by decide))
    (fun r hr => by cases hr)
  refine ⟨_, _, o, rfl, rfl, lines, ho, ?_, rounds, bytes⟩
  rw [handed]
  exact handing

end LinkScheduling
