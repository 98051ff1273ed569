import LinkScheduling.Drain
import LinkScheduling.Holdings

/-! The life of a descriptor. Each entry of a run's trace is made for one connection, the one
that the acceptor, the admission thread or the worker is busy with. A connection holds its own
socket until it is refused or finalised, and the file of its request. -/

namespace LinkScheduling
open Effect Pools Handles

/-- What a run does to descriptors: a connection is accepted, or a call is made. -/
inductive Entry
  | accepted (fd : Int)
  | called (e : Event)

def Entry.deed : Entry → Option (Deed × Int)
  | .accepted fd => some (.opens, fd)
  | .called e => e.deed

def Entry.accept : Entry → Option Int
  | .accepted fd => some fd
  | .called _ => none

def Entry.call : Entry → Option Event
  | .accepted _ => none
  | .called e => some e

def Server.client (s : Server) : Act → Option Int
  | .accept => some s.os.files.nextFd
  | .turnAway => s.acceptor.connection
  | .admission k => (s.threads[k]?).map Thread.fd
  | .work w => (((s.workers[w]?).bind Worker.request).bind s.heap).map Request.clientFd
  | _ => none

def Server.entriesOf (s : Server) (a : Act) (s' : Server) : List Entry :=
  if a = .accept then [.accepted s.os.files.nextFd] else (s'.log.drop s.log.length).map .called

def Server.made (s : Server) (a : Act) (s' : Server) : List (Int × Entry) :=
  match s.client a with
  | none => []
  | some c => (s.entriesOf a s').map fun e => (c, e)

def trace (cfg : Config) : List Act → Server → List (Int × Entry)
  | [], _ => []
  | a :: as, s =>
    match step cfg a s with
    | none => []
    | some s' => s.made a s' ++ trace cfg as s'

/-- The connection has been accepted, and neither refused nor finalised. -/
structure Server.Open (s : Server) (c : Int) : Prop where
  accepted : 0 < tally Mark.accept s.history c
  unrefused : tally Mark.refuse s.history c = 0
  unclosed : tally Mark.close s.history c = 0

def Server.filed (s : Server) (c d : Int) : Prop :=
  ∃ id r, s.heap id = some r ∧ r.clientFd = c ∧ r.fileFd = d ∧ 0 ≤ d

/-- The descriptors of a connection: its socket and the file of its request. -/
def Server.holds (s : Server) (c : Int) : Set Int := {d | d = c ∧ s.Open c ∨ s.filed c d}

theorem request_connection {t : Thread} {id : Nat} (h : t.request = some id) : t.connection = some t.fd := by
  obtain ⟨fd, phase⟩ := t
  cases phase with
  | stamping => rfl
  | opening => rfl
  | enqueuing => rfl
  | _ => cases h

namespace Tended
variable {s : Server} (h : Tended s)
include h

theorem handedOver {c : Int} (closed : 0 < tally Mark.close s.history c) :
    ∃ id, .finalised id c ∈ s.history ∧ .enqueued id c ∈ s.history := by
  obtain ⟨m, hm, hc⟩ := exists_of_tally_pos Mark.close c closed
  cases m with
  | finalised id fd =>
    cases hc
    exact ⟨id, hm, h.handed.finals hm⟩
  | _ => cases hc

theorem held_open {c : Int} (held : 0 < hit s.acceptor.connection c + tally Thread.connection s.threads c) :
    s.Open c := by
  have places := h.connections.places c
  have once := h.connections.once c
  refine ⟨by omega, by omega, ?_⟩
  by_contra closed
  obtain ⟨id, -, enqueued⟩ := h.handedOver (Nat.pos_of_ne_zero closed)
  have given := tally_pos Mark.handOver c enqueued rfl
  omega

theorem thread_open {k : Nat} {t : Thread} {c : Int} (hk : s.threads[k]? = some t) (ht : t.connection = some c) :
    s.Open c :=
  h.held_open (Nat.add_pos_right _ (tally_pos Thread.connection c (List.mem_of_getElem? hk) ht))

theorem request_open {id : Nat} {r : Request} (hr : s.heap id = some r) : s.Open r.clientFd := by
  rcases h.tenancy.bound hr with enqueued | ⟨t, ht, hid, hfd⟩
  · have given := tally_pos Mark.handOver r.clientFd enqueued rfl
    have places := h.connections.places r.clientFd
    have once := h.connections.once r.clientFd
    refine ⟨by omega, by omega, ?_⟩
    by_contra closed
    obtain ⟨id', finalised, enqueued'⟩ := h.handedOver (Nat.pos_of_ne_zero closed)
    have same := eq_of_tally_le_one Mark.handOver r.clientFd (by omega) enqueued enqueued' rfl rfl
    cases same
    have final := tally_pos Mark.finalise id finalised rfl
    have live := h.tenancy.live hr
    omega
  · refine h.held_open (Nat.add_pos_right _ (tally_pos Thread.connection r.clientFd ht ?_))
    rw [request_connection hid, hfd]

theorem request_unique {id id' : Nat} {r r' : Request} (hr : s.heap id = some r) (hr' : s.heap id' = some r')
    (same : r'.clientFd = r.clientFd) : id' = id := by
  have places := h.connections.places r.clientFd
  have once := h.connections.once r.clientFd
  have bound' := h.tenancy.bound hr'
  rw [same] at bound'
  rcases h.tenancy.bound hr with enqueued | ⟨t, ht, hid, hfd⟩ <;> rcases bound' with enqueued' | ⟨t', ht', hid', hfd'⟩
  · cases eq_of_tally_le_one Mark.handOver r.clientFd (by omega) enqueued enqueued' rfl rfl
    rfl
  · have given := tally_pos Mark.handOver r.clientFd enqueued rfl
    have thread := tally_pos Thread.connection r.clientFd ht' (by rw [request_connection hid', hfd'])
    omega
  · have given := tally_pos Mark.handOver r.clientFd enqueued' rfl
    have thread := tally_pos Thread.connection r.clientFd ht (by rw [request_connection hid, hfd])
    omega
  · cases eq_of_tally_le_one Thread.connection r.clientFd (by omega) ht ht' (by rw [request_connection hid, hfd])
      (by rw [request_connection hid', hfd'])
    exact Option.some.inj (hid'.symm.trans hid)

theorem thread_bare {k : Nat} {t : Thread} {c : Int} (hk : s.threads[k]? = some t) (ht : t.connection = some c)
    (none : t.request = none) {id : Nat} {r : Request} (hr : s.heap id = some r) : r.clientFd ≠ c := by
  rintro rfl
  have places := h.connections.places r.clientFd
  have once := h.connections.once r.clientFd
  have mem := List.mem_of_getElem? hk
  have thread := tally_pos Thread.connection r.clientFd mem ht
  rcases h.tenancy.bound hr with enqueued | ⟨t', ht', hid, hfd⟩
  · have given := tally_pos Mark.handOver r.clientFd enqueued rfl
    omega
  · have same := eq_of_tally_le_one Thread.connection r.clientFd (by omega) mem ht' ht (by rw [request_connection hid, hfd])
    rw [← same, none] at hid
    cases hid

theorem acceptor_bare {c : Int} (ha : s.acceptor.connection = some c) {id : Nat} {r : Request}
    (hr : s.heap id = some r) : r.clientFd ≠ c := by
  rintro rfl
  have places := h.connections.places r.clientFd
  have once := h.connections.once r.clientFd
  rw [ha, hit_self] at places
  rcases h.tenancy.bound hr with enqueued | ⟨t, ht, hid, hfd⟩
  · have given := tally_pos Mark.handOver r.clientFd enqueued rfl
    omega
  · have thread := tally_pos Thread.connection r.clientFd ht (by rw [request_connection hid, hfd])
    omega

end Tended

section Changes
variable {s s' : Server} {c q d : Int} {id : Nat}

theorem open_congr (a : tally Mark.accept s'.history q = tally Mark.accept s.history q)
    (r : tally Mark.refuse s'.history q = tally Mark.refuse s.history q)
    (f : tally Mark.close s'.history q = tally Mark.close s.history q) : s'.Open q ↔ s.Open q := by
  constructor
  · rintro ⟨accepted, unrefused, unclosed⟩
    exact ⟨a ▸ accepted, r ▸ unrefused, f ▸ unclosed⟩
  · rintro ⟨accepted, unrefused, unclosed⟩
    exact ⟨a ▸ accepted, r ▸ unrefused, f ▸ unclosed⟩

theorem open_same (history : s'.history = s.history) : s'.Open q ↔ s.Open q :=
  open_congr (by rw [history]) (by rw [history]) (by rw [history])

theorem open_mark {m : Mark} (history : s'.history = s.history ++ [m]) (a : hit m.accept q = 0 := by rfl)
    (r : hit m.refuse q = 0 := by rfl) (f : hit m.close q = 0 := by rfl) : s'.Open q ↔ s.Open q := by
  apply open_congr <;> simp [history, a, r, f]

theorem open_slice {o : Round} (history : s'.history = s.history ++ sliceMarks id o) : s'.Open q ↔ s.Open q := by
  apply open_congr <;> rw [history, tally_slice _ _ (fun _ => rfl) rfl]

theorem holds_congr (marks : s'.Open q ↔ s.Open q) (files : ∀ d, s'.filed q d ↔ s.filed q d) :
    s'.holds q = s.holds q := by
  ext d
  simp only [Server.holds, Set.mem_ofPred_eq, marks, files]

theorem filed_same (heap : s'.heap = s.heap) : s'.filed q d ↔ s.filed q d := by
  rw [Server.filed, Server.filed, heap]

theorem holds_same (heap : s'.heap = s.heap) (history : s'.history = s.history) : s'.holds q = s.holds q :=
  holds_congr (open_same history) fun _ => filed_same heap

theorem filed_other {y : Option Request} (heap : s'.heap = Function.update s.heap id y)
    (old : ∀ r, s.heap id = some r → r.clientFd = q → r.fileFd < 0)
    (new : ∀ r, y = some r → r.clientFd = q → r.fileFd < 0) : s'.filed q d ↔ s.filed q d := by
  constructor
  · rintro ⟨x, r, hr, client, file, nonneg⟩
    by_cases same : x = id
    · rw [heap, same, Function.update_self] at hr
      have unfiled := new r hr client
      omega
    · rw [heap, Function.update_of_ne same] at hr
      exact ⟨x, r, hr, client, file, nonneg⟩
  · rintro ⟨x, r, hr, client, file, nonneg⟩
    have same : x ≠ id := by
      rintro rfl
      have unfiled := old r hr client
      omega
    exact ⟨x, r, by rw [heap, Function.update_of_ne same, hr], client, file, nonneg⟩

theorem filed_kept {r r' : Request} (hr : s.heap id = some r) (heap : s'.heap = Function.update s.heap id (some r'))
    (client : r'.clientFd = r.clientFd := by rfl) (file : r'.fileFd = r.fileFd := by rfl) :
    s'.filed q d ↔ s.filed q d := by
  constructor
  · rintro ⟨x, u, hu, hc, hf, nonneg⟩
    by_cases same : x = id
    · rw [heap, same, Function.update_self] at hu
      cases hu
      exact ⟨id, r, hr, client ▸ hc, file ▸ hf, nonneg⟩
    · rw [heap, Function.update_of_ne same] at hu
      exact ⟨x, u, hu, hc, hf, nonneg⟩
  · rintro ⟨x, u, hu, hc, hf, nonneg⟩
    by_cases same : x = id
    · subst same
      cases hr.symm.trans hu
      exact ⟨x, r', by rw [heap, Function.update_self], client.trans hc, file.trans hf, nonneg⟩
    · exact ⟨x, u, by rw [heap, Function.update_of_ne same, hu], hc, hf, nonneg⟩

theorem holds_bare (opened : s.Open c) (bare : ∀ {id r}, s.heap id = some r → r.clientFd ≠ c) : s.holds c = {c} := by
  ext d
  simp only [Server.holds, Set.mem_ofPred_eq, Set.mem_singleton_iff]
  constructor
  · rintro (⟨same, -⟩ | ⟨id, r, hr, client, -⟩)
    · exact same
    · exact absurd client (bare hr)
  · exact fun same => .inl ⟨same, opened⟩

theorem holds_request {r : Request} (opened : s.Open c) (hr : s.heap id = some r) (client : r.clientFd = c)
    (unique : ∀ {id' r'}, s.heap id' = some r' → r'.clientFd = c → id' = id) : s.holds c = r.held := by
  ext d
  simp only [Server.holds, Request.held, Set.mem_ofPred_eq, client]
  constructor
  · rintro (⟨same, -⟩ | ⟨id', r', hr', client', file, nonneg⟩)
    · exact .inl same
    · cases unique hr' client'
      cases hr.symm.trans hr'
      exact .inr ⟨file.symm, nonneg⟩
  · rintro (same | ⟨file, nonneg⟩)
    · exact .inl ⟨same, opened⟩
    · exact .inr ⟨id, r, hr, client, file.symm, nonneg⟩

theorem holds_gone (gone : ¬ s.Open c) (bare : ∀ {id r}, s.heap id = some r → r.clientFd ≠ c) : s.holds c = ∅ := by
  refine Set.eq_empty_of_forall_notMem fun d h => ?_
  rcases h with ⟨-, opened⟩ | ⟨id, r, hr, client, -⟩
  · exact gone opened
  · exact bare hr client

end Changes

/-- The trace has the calls of the log and the sockets of the connections, and each connection
holds what has been opened for it and not been closed. -/
structure Custodial (s : Server) (t : List (Int × Entry)) : Prop where
  custody : Custody Entry.deed (s.os.files.nextFd : Int) s.holds t
  calls : t.filterMap (fun e => e.2.call) = s.log
  sockets : ∀ c, 0 < tally Mark.accept s.history c → Obtained Entry.deed t c c

theorem made_idle {s s' : Server} {a : Act} (ha : a ≠ .accept) (log : s'.log = s.log) : s.made a s' = [] := by
  unfold Server.made Server.entriesOf
  rw [if_neg ha, log, List.drop_length]
  cases s.client a <;> rfl

theorem made_acts {s s' : Server} {a : Act} (ha : a ≠ .accept) {c : Int} (client : s.client a = some c) {l : List Event}
    (log : s'.log = s.log ++ l) : s.made a s' = (l.map Entry.called).map fun e => (c, e) := by
  unfold Server.made Server.entriesOf
  rw [if_neg ha, client, log, List.drop_left]

theorem obtained_append {t t' : List (Int × Entry)} {c d : Int} (h : Obtained Entry.deed t c d) :
    Obtained Entry.deed (t ++ t') c d := by
  obtain ⟨e, he, opens⟩ := h
  exact ⟨e, List.mem_append_left _ he, opens⟩

abbrev Accepts (s s' : Server) : Prop := ∀ c, tally Mark.accept s'.history c = tally Mark.accept s.history c

theorem accepts_mark {s s' : Server} {m : Mark} (history : s'.history = s.history ++ [m]) (h : m.accept = none := by rfl) :
    Accepts s s' := by
  intro c
  rw [history, tally_mark _ _ h]

namespace Custodial
variable {s s' : Server} {t : List (Int × Entry)} {a : Act}

theorem idle (h : Custodial s t) (ha : a ≠ .accept) (same : ∀ q, s'.holds q = s.holds q)
    (accepts : Accepts s s' := by exact fun _ => rfl) (log : s'.log = s.log := by rfl)
    (next : s.os.files.nextFd ≤ s'.os.files.nextFd := by exact Nat.le_refl _) : Custodial s' (t ++ s.made a s') := by
  rw [made_idle ha log, List.append_nil]
  refine ⟨h.custody.idle (by exact_mod_cast next) same, h.calls.trans log.symm, fun c accepted => ?_⟩
  exact h.sockets c (accepts c ▸ accepted)

theorem rest (h : Custodial s t) (ha : a ≠ .accept) (heap : s'.heap = s.heap := by rfl)
    (history : s'.history = s.history := by rfl) (log : s'.log = s.log := by rfl)
    (next : s.os.files.nextFd ≤ s'.os.files.nextFd := by exact Nat.le_refl _) : Custodial s' (t ++ s.made a s') :=
  h.idle ha (fun _ => holds_same heap history) (fun _ => by rw [history]) log next

theorem acts (h : Custodial s t) (ha : a ≠ .accept) {c : Int} (client : s.client a = some c) {l : List Event}
    (log : s'.log = s.log ++ l) (accepts : Accepts s s')
    (conducts : Conducts Event.deed (s.os.files.nextFd : Int) (s.holds c) l (s'.os.files.nextFd : Int) (s'.holds c))
    (others : ∀ q ≠ c, s'.holds q = s.holds q) : Custodial s' (t ++ s.made a s') := by
  rw [made_acts ha client log]
  refine ⟨h.custody.act (conducts.map fun _ => rfl) others, ?_, fun c accepted => ?_⟩
  · have called : ((l.map Entry.called).map fun e => (c, e)).filterMap (fun e => e.2.call) = l := by
      rw [List.map_map, List.filterMap_map]
      exact List.filterMap_some
    rw [List.filterMap_append, h.calls, called, log]
  · exact obtained_append (h.sockets c (accepts c ▸ accepted))

theorem uses (h : Custodial s t) (ha : a ≠ .accept) {c : Int} (client : s.client a = some c) {l : List Event}
    (log : s'.log = s.log ++ l) (accepts : Accepts s s')
    (conducts : Conducts Event.deed (s.os.files.nextFd : Int) (s.holds c) l (s'.os.files.nextFd : Int) (s.holds c))
    (same : ∀ q, s'.holds q = s.holds q) : Custodial s' (t ++ s.made a s') := by
  refine h.acts ha client log accepts ?_ fun q _ => same q
  rw [same]
  exact conducts

theorem below (h : Custodial s t) {c : Int} : ∀ d ∈ s.holds c, d < (s.os.files.nextFd : Int) :=
  fun _ held => h.custody.below held

end Custodial

section Steps
variable {cfg : Config} {s s' : Server} {t : List (Int × Entry)}

theorem custody_answer {a : Act} {c : Int} {reply : Bytes} {m : Mark} (h : Custodial s t) (ha : a ≠ .accept)
    (client : s.client a = some c) (opened : s.Open c) (bare : ∀ {id r}, s.heap id = some r → r.clientFd ≠ c)
    (log : s'.log = s.log ++ (answer c reply s.os).log) (os : s'.os = (answer c reply s.os).state)
    (heap : s'.heap = s.heap) (history : s'.history = s.history ++ [m]) (refused : m.refuse = some c)
    (accept : m.accept = none) (close : m.close = none) : Custodial s' (t ++ s.made a s') := by
  have own : s.holds c = {c} := holds_bare opened bare
  have gone : s'.holds c = ∅ := by
    refine holds_gone (fun opened' => ?_) (fun hr => bare (heap ▸ hr))
    have unrefused := opened'.unrefused
    rw [history, tally_append, tally_cons, refused, hit_self] at unrefused
    omega
  refine h.acts ha client log (accepts_mark history accept) ?_ fun q hq =>
    holds_congr (open_mark history ?_ ?_ ?_) fun _ => filed_same heap
  · obtain ⟨closes, -⟩ := @answer_closes (s.holds c) s.os c (by rw [own]; rfl) h.below reply
    rw [own, Set.sdiff_self] at closes
    rw [gone, os, own]
    exact closes
  · rw [accept, hit_none]
  · rw [refused, hit_some, if_neg (Ne.symm hq)]
  · rw [close, hit_none]

theorem custody_acceptor {a : Act} (tended : Tended s) (h : Custodial s t) (step : acceptorStep a s = some s') :
    Custodial s' (t ++ s.made a s') := by
  unfold acceptorStep at step
  split at step
  · rename_i ha
    split at step
    · cases step
      -- the new socket is nobody's
      have fresh := tended.connections.fresh s.os.files.nextFd (le_refl _)
      have places := tended.connections.places s.os.files.nextFd
      have bare : ∀ {id r}, s.heap id = some r → r.clientFd ≠ (s.os.files.nextFd : Int) := by
        intro id r hr same
        have below := (tended.fitting.fit hr).sound.below _ (held_client r)
        simp only at below
        omega
      have none : s.holds s.os.files.nextFd = ∅ := holds_gone (fun opened => by have := opened.accepted; omega) bare
      have own : Server.holds (({ s with
          acceptor := .accepted s.os.files.nextFd
          os := { s.os with files := s.os.files.reserve } } : Server).mark [.accepted s.os.files.nextFd])
          s.os.files.nextFd = {(s.os.files.nextFd : Int)} := by
        refine holds_bare ⟨?_, ?_, ?_⟩ bare
        · exact tally_pos Mark.accept _ (List.mem_append_right _ (List.mem_singleton.mpr rfl)) rfl
        · change tally Mark.refuse (s.history ++ [.accepted s.os.files.nextFd]) s.os.files.nextFd = 0
          rw [tally_mark _ _ rfl]
          omega
        · change tally Mark.close (s.history ++ [.accepted s.os.files.nextFd]) s.os.files.nextFd = 0
          rw [tally_mark _ _ rfl]
          by_contra closed
          obtain ⟨id, -, enqueued⟩ := tended.handedOver (c := s.os.files.nextFd) (by omega)
          have given := tally_pos Mark.handOver _ enqueued rfl
          omega
      refine ⟨h.custody.act (p := (s.os.files.nextFd : Int)) (l := [.accepted s.os.files.nextFd]) ?_ fun q hq =>
        holds_congr (open_mark rfl ?_) fun _ => filed_same rfl, ?_, fun c accepted => ?_⟩
      · rw [own, none]
        have opens : Conducts Entry.deed (s.os.files.nextFd : Int) ∅ [.accepted s.os.files.nextFd]
            ((s.os.files.nextFd + 1 : Nat) : Int) (insert (s.os.files.nextFd : Int) ∅) := .opens rfl (by omega)
        rwa [insert_empty_eq] at opens
      · rw [Mark.accept, hit_some, if_neg (Ne.symm hq)]
      · rw [List.filterMap_append, h.calls]
        exact List.append_nil _
      · by_cases new : c = s.os.files.nextFd
        · exact ⟨.accepted c, List.mem_append_right _ (by rw [new]; exact List.mem_singleton.mpr rfl), rfl⟩
        · simp only [Server.mark, tally_append, tally_cons, Mark.accept, hit_some, if_neg (Ne.symm new)] at accepted
          exact obtained_append (h.sockets c accepted)
    · cases step
  · cases step
    split <;> exact h.rest (by simp)
  · cases step
    exact h.rest (by simp)
  · cases step
    exact h.rest (by simp)
  · cases step
    exact h.rest (by simp)
  · rename_i fd ha
    cases step
    have held : s.acceptor.connection = some fd := by rw [ha]; rfl
    refine custody_answer h (by simp) held (tended.held_open ?_) (tended.acceptor_bare held) rfl rfl rfl rfl rfl rfl rfl
    rw [held, hit_self]
    omega
  · cases step

theorem holds_thread (tended : Tended s) {id : Nat} {r : Request} (hr : s.heap id = some r) :
    s.holds r.clientFd = r.held :=
  holds_request (tended.request_open hr) hr rfl fun hr' same => tended.request_unique hr hr' same

theorem custody_opened {a : Act} {id : Nat} {r : Request} {n : Nat} {size : UInt64} {l : List Event}
    (tended : Tended s) (tended' : Tended s') (h : Custodial s t) (ha : a ≠ .accept)
    (client : s.client a = some r.clientFd) (hr : s.heap id = some r) (file : r.fileFd = -1)
    (acts : Conducts Event.deed (s.os.files.nextFd : Int) (s.holds r.clientFd) l (s'.os.files.nextFd : Int)
      (insert (n : Int) (s.holds r.clientFd)))
    (log : s'.log = s.log ++ l)
    (heap : s'.heap = Function.update s.heap id (some { r with fileFd := n, bytes := size }))
    (history : s'.history = s.history ++ [.opened id]) : Custodial s' (t ++ s.made a s') := by
  have own : s.holds r.clientFd = {r.clientFd} := (holds_thread tended hr).trans (held_none file)
  have own' := holds_thread tended' (show s'.heap id = some { r with fileFd := n, bytes := size } by
    rw [heap, Function.update_self])
  have both : Request.held { r with fileFd := (n : Int), bytes := size } = insert (n : Int) {r.clientFd} := by
    ext d
    simp only [Request.held, Set.mem_ofPred_eq, Set.mem_insert_iff, Set.mem_singleton_iff]
    omega
  rw [both, ← own] at own'
  refine h.acts ha client log (accepts_mark history) ?_ fun q hq =>
    holds_congr (open_mark history) fun d => filed_other heap (fun u hu same => ?_) fun u hu same => ?_
  · rw [own']
    exact acts
  · cases hr.symm.trans hu
    exact absurd same.symm hq
  · cases hu
    exact absurd same.symm hq

theorem readDone_keeps (s : Server) (k : Nat) (fd : Int) (o : Outcome Fault Os Event HeaderReadResult) :
    (s.readDone k fd o).log = s.log ++ o.log ∧ (s.readDone k fd o).os = o.state ∧
      (s.readDone k fd o).heap = s.heap ∧ (s.readDone k fd o).history = s.history := by
  unfold Server.readDone
  cases o.value <;> exact ⟨rfl, rfl, rfl, rfl⟩

theorem custody_thread {k : Nat} (tended : Tended s) (tended' : Tended s') (h : Custodial s t)
    (step : threadStep cfg k s = some s') : Custodial s' (t ++ s.made (.admission k) s') := by
  unfold threadStep at step
  cases hk : s.threads[k]? with
  | none => simp [hk] at step
  | some thread =>
    obtain ⟨fd, phase⟩ := thread
    have client : s.client (.admission k) = some fd := by simp [Server.client, hk]
    simp only [hk] at step
    cases phase with
    | reading =>
      have own : s.holds fd = {fd} :=
        holds_bare (tended.thread_open hk rfl) (tended.thread_bare hk rfl rfl)
      have held : fd ∈ s.holds fd := by rw [own]; rfl
      have uses := (@Uses.conducts _ s.os _ _ (readHeaderLine_uses held kHeaderTimeoutMs)).1
      obtain ⟨log, os, heap, history⟩ := readDone_keeps s k fd (readHeaderLine fd kHeaderTimeoutMs s.os)
      obtain rfl := Option.some.inj step
      rw [← os] at uses
      exact h.uses (by simp) client log (fun _ => by rw [history]) uses fun q => holds_same heap history
    | asked =>
      cases step
      exact h.rest (by simp)
    | answering reply =>
      cases step
      exact custody_answer h (by simp) client (tended.thread_open hk rfl) (tended.thread_bare hk rfl rfl)
        rfl rfl rfl rfl rfl rfl rfl
    | numbering op filename bytes leftover =>
      cases step
      refine h.idle (by simp) (fun q => holds_congr (open_mark rfl) fun d => filed_other rfl (fun r hr => ?_) ?_)
        (accepts_mark rfl)
      · -- no request has the next number
        have fresh := tended.placement.fresh s.nextId (le_refl _)
        rcases tended.tenancy.bound hr with enqueued | ⟨u, hu, hid, -⟩
        · have pos := tally_pos Mark.enqueue s.nextId enqueued rfl
          omega
        · have pos := tally_pos Thread.request s.nextId hu hid
          omega
      · intro r hr _
        cases hr
        exact neg_one_lt_zero
    | stamping id =>
      obtain ⟨r, hr, rfl⟩ := Option.map_eq_some_iff.mp step
      exact h.idle (by simp) fun q => holds_congr (open_same rfl) fun d => filed_kept hr rfl
    | opening id =>
      obtain ⟨r, hr, rfl⟩ := Option.map_eq_some_iff.mp step
      have newborn := (tended.fitting.fit hr).born (tally_pos Thread.newborn id (List.mem_of_getElem? hk) rfl)
      have bound := tended.handed.bound (.inr ⟨_, List.mem_of_getElem? hk, rfl, rfl⟩) hr
      subst bound
      have own : s.holds r.clientFd = {r.clientFd} := (holds_thread tended hr).trans (held_none newborn.file)
      have unfiled : ∀ {q}, ∀ u, s.heap id = some u → u.clientFd = q → u.fileFd < 0 := by
        intro q u hu _
        cases hr.symm.trans hu
        rw [newborn.file]
        exact neg_one_lt_zero
      obtain ⟨-, opens⟩ := @openGet_conducts (s.holds r.clientFd) s.os r.path h.below
      rcases openDone_cases s k r.clientFd id r (openGet r.path s.os) with
        ⟨n, size, hv, done⟩ | ⟨hv, done⟩ | ⟨e, hv, done⟩
      · rcases opens with ⟨refused, -⟩ | ⟨size', given, acts⟩
        · rw [hv] at refused
          cases refused
        · rw [hv] at given
          cases given
          rw [done] at tended' ⊢
          exact custody_opened tended tended' h (by simp) client hr newborn.file acts rfl rfl rfl
      · rcases opens with ⟨-, acts⟩ | ⟨size', given, -⟩
        · rw [done]
          refine h.uses (by simp) client rfl (fun _ => rfl) acts fun q =>
            holds_congr (open_same rfl) fun d => filed_other rfl unfiled fun u hu => ?_
          cases hu
        · rw [hv] at given
          cases given
      · rcases opens with ⟨given, -⟩ | ⟨size', given, -⟩
        · rw [hv] at given
          cases given
        · rw [hv] at given
          cases given
    | enqueuing id =>
      cases step
      exact h.idle (by simp) (fun q => holds_congr (open_mark rfl) fun _ => filed_same rfl) (accepts_mark rfl)
    | leaving =>
      cases step
      exact h.rest (by simp)
    | gone => cases step

theorem custody_slice {w id : Nat} {r : Request} {o : Round} {a : Act} (tended : Tended s) (tended' : Tended s')
    (h : Custodial s t) (up : s.crashed = false) (ha : a ≠ .accept) (client : s.client a = some r.clientFd)
    (hw : s.workers[w]? = some (.holding id)) (hr : s.heap id = some r)
    (ho : o = serveOrReport r.clientFd cfg.sp ⟨r, s.os⟩) (log : s'.log = s.log ++ o.log)
    (os : s'.os = o.state.os) (heap : s'.heap = Function.update s.heap id (some o.state.req))
    (history : s'.history = s.history ++ sliceMarks id o) : Custodial s' (t ++ s.made a s') := by
  have kept := (tended.fitting.slice tended.placement up hw hr ho).1
  obtain ⟨-, same, -⟩ := fixed_fields kept.fixed
  have own := holds_thread tended hr
  have own' := holds_thread tended' (show s'.heap id = some o.state.req by rw [heap, Function.update_self])
  rw [same] at own'
  refine h.acts ha client log (fun _ => by rw [history, tally_slice _ _ (fun _ => rfl) rfl]) ?_ fun q hq =>
    holds_congr (open_slice history) fun d => filed_other heap ?_ ?_
  · rw [own, own', os]
    exact kept.acts (tended.fitting.fit hr).sound
  · intro u hu client
    cases hr.symm.trans hu
    exact absurd client.symm hq
  · intro u hu client
    cases hu
    exact absurd (client.symm.trans same) hq

theorem custody_worker {w : Nat} (tended : Tended s) (tended' : Tended s') (h : Custodial s t)
    (up : s.crashed = false) (step : workerStep cfg w s = some s') : Custodial s' (t ++ s.made (.work w) s') := by
  unfold workerStep at step
  cases hw : s.workers[w]? with
  | none => simp [hw] at step
  | some worker =>
    simp only [hw] at step
    cases worker with
    | asking =>
      by_cases hq : s.queue = []
      · simp only [if_pos hq] at step
        split at step
        · cases step
          exact h.rest (by simp)
        · cases step
      · simp only [if_neg hq] at step
        obtain ⟨id, hid, step⟩ := Option.bind_eq_some_iff.mp step
        obtain ⟨r, hr, rfl⟩ := Option.map_eq_some_iff.mp step
        exact h.idle (by simp) fun q => holds_congr (open_same rfl) fun d => filed_kept hr rfl
    | holding id =>
      obtain ⟨r, hr, rfl⟩ := Option.map_eq_some_iff.mp step
      have client : s.client (.work w) = some r.clientFd := by simp [Server.client, hw, Worker.request, hr]
      rcases sliceDone_cases s w id (serveOrReport r.clientFd cfg.sp ⟨r, s.os⟩) with
        ⟨hv, done⟩ | ⟨res, hv, final, done⟩ | ⟨e, hv, done⟩
      · rw [done] at tended' ⊢
        exact custody_slice tended tended' h up (by simp) client hw hr rfl rfl rfl rfl rfl
      · rw [done] at tended' ⊢
        exact custody_slice tended tended' h up (by simp) client hw hr rfl rfl rfl rfl rfl
      · rw [done] at tended' ⊢
        exact custody_slice tended tended' h up (by simp) client hw hr rfl rfl rfl rfl rfl
    | preempted id =>
      cases step
      exact h.rest (by simp)
    | served id res =>
      obtain ⟨r, hr, rfl⟩ := Option.map_eq_some_iff.mp step
      exact h.idle (by simp) fun q => holds_congr (open_same rfl) fun d => filed_kept hr rfl
    | recorded id =>
      obtain ⟨r, hr, rfl⟩ := Option.map_eq_some_iff.mp step
      have client : s.client (.work w) = some r.clientFd := by simp [Server.client, hw, Worker.request, hr]
      have own := holds_thread tended hr
      have history : (((s.released id (finalise ⟨r, s.os⟩)).setWorker w .asking).mark
        [.finalised id r.clientFd]).history = s.history ++ [.finalised id r.clientFd] := rfl
      have gone : Server.holds (((s.released id (finalise ⟨r, s.os⟩)).setWorker w .asking).mark
          [.finalised id r.clientFd]) r.clientFd = ∅ := by
        refine holds_gone (fun opened => ?_) fun {id' r'} hr' same => ?_
        · have unclosed := opened.unclosed
          rw [history, tally_append, tally_cons, Mark.close, hit_self] at unclosed
          omega
        · change Function.update s.heap id none id' = some r' at hr'
          by_cases new : id' = id
          · rw [new, Function.update_self] at hr'
            cases hr'
          · rw [Function.update_of_ne new] at hr'
            exact new (tended.request_unique hr hr' same)
      obtain ⟨-, closes, -⟩ := finalise_closes (tended.fitting.fit hr).sound
      refine h.acts (by simp) client rfl (accepts_mark history) ?_ fun q hq =>
        holds_congr (open_mark history rfl rfl ?_) fun d => filed_other rfl ?_ ?_
      · rw [gone, own]
        exact closes
      · rw [Mark.close, hit_some, if_neg (Ne.symm hq)]
      · intro u hu client
        cases hr.symm.trans hu
        exact absurd client.symm hq
      · intro u hu
        cases hu
    | exited => cases step

theorem custody_main (h : Custodial s t) (step : mainStep s = some s') : Custodial s' (t ++ s.made .main s') := by
  unfold mainStep at step
  cases hm : s.main with
  | polling =>
    simp only [hm] at step
    split at step
    · cases step
      exact h.rest (by simp)
    · cases step
  | joiningAcceptor =>
    simp only [hm] at step
    split at step
    · cases step
      exact h.rest (by simp)
    · cases step
  | awaitingAdmissions =>
    simp only [hm] at step
    split at step
    · cases step
    · cases step
      exact h.rest (by simp)
  | stopping =>
    simp only [hm] at step
    cases step
    exact h.rest (by simp)
  | joiningWorkers =>
    simp only [hm] at step
    split at step
    · cases step
      exact h.rest (by simp)
    · cases step
  | finished => simp [hm] at step

theorem custody_step {a : Act} (tended : Tended s) (h : Custodial s t) (step : step cfg a s = some s') :
    Tended s' ∧ Custodial s' (t ++ s.made a s') := by
  obtain ⟨up, goes⟩ := step_cases step
  have tended' := tended.step up goes
  refine ⟨tended', ?_⟩
  unfold LinkScheduling.step at step
  rw [if_neg (by simp [up])] at step
  cases a with
  | tick ns =>
    cases step
    exact h.rest (by simp)
  | signal =>
    cases step
    exact h.rest (by simp)
  | admission k => exact custody_thread tended tended' h step
  | work w => exact custody_worker tended tended' h up step
  | main => exact custody_main h step
  | _ => exact custody_acceptor tended h step

end Steps

theorem custody_run {cfg : Config} {as : List Act} {s s' : Server} {t : List (Int × Entry)} (tended : Tended s)
    (h : Custodial s t) (run : run cfg as s = some s') : Tended s' ∧ Custodial s' (t ++ trace cfg as s) := by
  induction as generalizing s t with
  | nil =>
    cases run
    rw [trace, List.append_nil]
    exact ⟨tended, h⟩
  | cons a as ih =>
    obtain ⟨u, hu, rest⟩ := Option.bind_eq_some_iff.mp run
    obtain ⟨tended, h⟩ := custody_step tended h hu
    have run := ih tended h rest
    rw [trace, hu]
    rwa [List.append_assoc] at run

theorem Custodial.start (os : Os) (threads : Nat) : Custodial (.start os threads) [] where
  custody := by
    have empty : (Server.start os threads).holds = fun _ => ∅ := by
      funext c
      refine holds_gone (fun opened => ?_) fun hr => ?_
      · exact absurd opened.accepted (lt_irrefl 0)
      · cases hr
    rw [empty]
    exact .nil _
  calls := rfl
  sockets _ accepted := absurd accepted (lt_irrefl 0)

def Server.Ended (s : Server) (c : Int) : Prop :=
  .turnedAway c ∈ s.history ∨ .answered c ∈ s.history ∨ ∃ id, .finalised id c ∈ s.history

theorem Tended.ended_holds {s : Server} (h : Tended s) {c : Int} (ended : s.Ended c) : s.holds c = ∅ := by
  have gone : ¬ s.Open c := by
    intro opened
    rcases ended with away | answered | ⟨id, final⟩
    · exact absurd opened.unrefused (tally_pos Mark.refuse c away rfl).ne'
    · exact absurd opened.unrefused (tally_pos Mark.refuse c answered rfl).ne'
    · exact absurd opened.unclosed (tally_pos Mark.close c final rfl).ne'
  refine holds_gone gone fun hr same => gone ?_
  rw [← same]
  exact h.request_open hr

structure Relinquished (s : Server) (t : List (Int × Entry)) : Prop where
  calls : t.filterMap (fun e => e.2.call) = s.log
  sockets : ∀ c, .accepted c ∈ s.history → Obtained Entry.deed t c c
  unused : Tidy Entry.deed (entries t)
  once : ∀ d, closings Entry.deed (entries t) d ≤ 1
  alone : ∀ {c q e e' d d' fd}, (c, e) ∈ t → e.deed = some (d, fd) → (q, e') ∈ t → e'.deed = some (d', fd) → c = q
  closed : ∀ {c d}, s.Ended c → Obtained Entry.deed t c d → closings Entry.deed (entries t) d = 1

/-- Whatever happens, no descriptor is named after it is closed, none is closed twice, none is
named for two connections, and of those that a connection has obtained each is closed once when
it is refused or finalised. -/
theorem run_relinquished {cfg : Config} {os : Os} {threads : Nat} {as : List Act} {s : Server}
    (h : run cfg as (.start os threads) = some s) : Relinquished s (trace cfg as (.start os threads)) := by
  obtain ⟨tended, custodial⟩ := custody_run (.start os threads) (.start os threads) h
  rw [List.nil_append] at custodial
  have custody := custodial.custody
  refine ⟨custodial.calls, fun c accepted => ?_, custody.tidy, custody.tidy.closings_le_one, custody.alone,
    fun {c d} ended obtained => ?_⟩
  · exact custodial.sockets c (tally_pos Mark.accept c accepted rfl)
  · have le := custody.tidy.closings_le_one d
    have closed : Handles.Closed Entry.deed (entries (trace cfg as (.start os threads))) d := by
      by_contra open_
      have held := custody.kept obtained open_
      rw [tended.ended_holds ended] at held
      exact held
    rw [closed_iff_closings] at closed
    omega

theorem run_relinquished_single : ∃ s,
    run { fileDir := [100], sp := { policy := .drr, quantum := 9 } } servedAndStopped
        (.start (uploader [97, 98]) 1) = some s ∧
      s.history.filterMap Mark.close = [0] ∧
      s.log.filterMap Event.deed = [(.uses, 0), (.uses, 0), (.opens, 1), (.uses, 0), (.uses, 0), (.uses, 1),
        (.closes, 1), (.uses, 0), (.uses, 0), (.closes, 0)] ∧
      Relinquished s (trace { fileDir := [100], sp := { policy := .drr, quantum := 9 } } servedAndStopped
        (.start (uploader [97, 98]) 1)) := by
  have facts : (run { fileDir := [100], sp := { policy := .drr, quantum := 9 } } servedAndStopped
      (.start (uploader [97, 98]) 1)).map (fun s => (s.history.filterMap Mark.close, s.log.filterMap Event.deed)) =
        some ([0], [(.uses, 0), (.uses, 0), (.opens, 1), (.uses, 0), (.uses, 0), (.uses, 1),
          (.closes, 1), (.uses, 0), (.uses, 0), (.closes, 0)]) := by decide +kernel
  obtain ⟨s, hs, served⟩ := Option.map_eq_some_iff.mp facts
  simp only [Prod.mk.injEq] at served
  exact ⟨s, hs, served.1, served.2, run_relinquished hs⟩

end LinkScheduling
