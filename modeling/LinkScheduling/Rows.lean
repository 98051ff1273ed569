import LinkScheduling.Drain
import LinkScheduling.Solo

/-! The rows of the metrics file. Their stamps are in order, and the counter of a row is the number
of times `next` has returned its request, as long as an `int` holds that number. A download of
`2^31` lines under drr with quantum 1 takes more. -/

namespace LinkScheduling
open Effect Lines

/-- A row that can be trusted: `ns` is what `next` has returned, and when. -/
structure Sound (r : Request) (ns : List (Nat × Nat)) : Prop where
  arrival_le : r.arrivalNs ≤ r.startNs
  start_le : r.startNs ≤ r.finishNs
  first : (times ns r.id).head? = some r.startNs
  counter : r.counter = (times ns r.id).length
  waiting : 0 ≤ r.waitingNs
  response : r.waitingNs ≤ r.responseNs

theorem Consistent.sound_iff {r : Request} {ns : List (Nat × Nat)} (h : Consistent r ns) :
    Sound r ns ↔ (times ns r.id).length < 2 ^ 31 := by
  constructor
  · intro sound
    exact (Request.counter_eq h.rounds).mp sound.counter
  · intro few
    have arrival := h.arrival_le
    have start := h.start_le
    refine ⟨arrival, start, h.first, (Request.counter_eq h.rounds).mpr few, ?_, ?_⟩
    · unfold Request.waitingNs
      omega
    · unfold Request.waitingNs Request.responseNs
      omega

/-- In every run, the stamps of every row are in order, and the row is right if and only if `next`
has returned its request fewer than `2^31` times. -/
theorem run_rows_sound {cfg : Config} {os : Os} {threads : Nat} (clock : 0 < os.now) {as : List Turn} {c : Clocked}
    (run : Clocked.run cfg as ⟨.start os threads, []⟩ = some c) : ∀ r ∈ c.server.accounts.rows,
      (Sound r (Clocked.nexts cfg as ⟨.start os threads, []⟩) ↔
        (times (Clocked.nexts cfg as ⟨.start os threads, []⟩) r.id).length < 2 ^ 31) ∧
      r.arrivalNs ≤ r.startNs ∧ r.startNs ≤ r.finishNs ∧
      (times (Clocked.nexts cfg as ⟨.start os threads, []⟩) r.id).head? = some r.startNs := by
  intro r hr
  have stamped := Clocked.run_stamped (.start clock threads) (.start os threads) run
  have consistent := (stamped.rows r hr).1
  exact ⟨consistent.sound_iff, consistent.arrival_le, consistent.start_le, consistent.first⟩

def loggedTurns : List Turn :=
  [Act.accept, .count, .spawn, .admission 0, .admission 0, .admission 0, .admission 0].map .act ++ cycle

theorem run_rows_sound_single : ∃ c,
    Clocked.run { fileDir := [100], sp := { policy := .drr, quantum := 9 } } loggedTurns
        ⟨.start { uploader [97, 98] with now := 1 } 1, []⟩ = some c ∧
      c.server.accounts.rows.map Request.rounds = [1] ∧
      ∀ r ∈ c.server.accounts.rows, Sound r (Clocked.nexts
        { fileDir := [100], sp := { policy := .drr, quantum := 9 } } loggedTurns
        ⟨.start { uploader [97, 98] with now := 1 } 1, []⟩) := by
  have facts : (Clocked.run { fileDir := [100], sp := { policy := .drr, quantum := 9 } } loggedTurns
      ⟨.start { uploader [97, 98] with now := 1 } 1, []⟩).map (fun c =>
        (c.server.accounts.rows.map Request.rounds, c.server.accounts.rows.map Request.id)) =
      some ([1], [1]) := by decide +kernel
  have calls : Clocked.nexts { fileDir := [100], sp := { policy := .drr, quantum := 9 } } loggedTurns
      ⟨.start { uploader [97, 98] with now := 1 } 1, []⟩ = [(1, 1)] := by decide +kernel
  obtain ⟨c, run, served⟩ := Option.map_eq_some_iff.mp facts
  obtain ⟨rounds, ids⟩ := Prod.mk.inj served
  refine ⟨c, run, rounds, fun r hr => ?_⟩
  have id : r.id = 1 := List.mem_singleton.mp (ids ▸ List.mem_map_of_mem hr)
  refine (run_rows_sound (by decide) run r hr).1.mpr ?_
  rw [calls, id]
  decide

theorem downloader_unsound {cfg : Config} (dir : cfg.fileDir = ascii "d") (hp : cfg.sp.policy = .drr)
    (hq : cfg.sp.quantum.toNat = 1) {data : Bytes} {n : Nat} (size : data.length = n) (long : 2 ^ 31 ≤ n)
    (small : n < offLimit) : ∃ c r, Clocked.run cfg (downloadTurns n) ⟨.start (downloader data) 1, []⟩ = some c ∧
      r ∈ c.server.accounts.rows ∧ ¬ Sound r (Clocked.nexts cfg (downloadTurns n) ⟨.start (downloader data) 1, []⟩) := by
  subst size
  obtain ⟨c, r, run, hr, rounds⟩ := downloader_row dir hp hq (by omega) small
  have clock : 0 < (downloader data).now := Nat.one_pos
  have stamped := Clocked.run_stamped (.start clock 1) (.start _ 1) run
  have consistent := (stamped.rows r hr).1
  refine ⟨c, r, run, hr, fun sound => ?_⟩
  have few := consistent.sound_iff.mp sound
  rw [← consistent.rounds, rounds] at few
  omega

theorem run_rows_unsound : 0 < (downloader (List.replicate (2 ^ 31) newline)).now ∧ ∃ c r,
    Clocked.run { fileDir := ascii "d", sp := { policy := .drr, quantum := 1 } } (downloadTurns (2 ^ 31))
        ⟨.start (downloader (List.replicate (2 ^ 31) newline)) 1, []⟩ = some c ∧
      r ∈ c.server.accounts.rows ∧
      ¬ Sound r (Clocked.nexts { fileDir := ascii "d", sp := { policy := .drr, quantum := 1 } } (downloadTurns (2 ^ 31))
        ⟨.start (downloader (List.replicate (2 ^ 31) newline)) 1, []⟩) :=
  ⟨Nat.one_pos, downloader_unsound rfl rfl rfl List.length_replicate (Nat.le_refl _) (by decide)⟩

end LinkScheduling
