import LinkScheduling.Handles
import LinkScheduling.Server

/-! What the server's calls name: descriptors, which they open, use and close, and paths. A
request holds the connection it answers on and its file, and whatever comes of a slice or a
release, nothing else is named and what it opens is either kept in the request or closed. -/

namespace LinkScheduling
open Effect Handles

def Event.deed : Event → Option (Deed × Int)
  | .opened _ fd => some (.opens, fd)
  | .closed fd => some (.closes, fd)
  | .handed fd _ | .pread fd _ _ | .preadFailed fd | .sent fd _ | .sendFailed fd _ | .received fd _ _
  | .recvFailed fd _ _ | .wrote fd _ | .writeFailed fd _ | .statFailed fd | .badCall fd | .armed fd _ _
  | .expired fd => some (.uses, fd)
  | .a14 .. | .openFailed _ | .renamed .. | .renameFailed .. | .unlinked _ | .unlinkFailed _ | .missing _
  | .allocFailed => none

def Event.paths : Event → List Path
  | .opened p _ | .openFailed p | .unlinked p | .unlinkFailed p | .missing p => [p]
  | .renamed src dst | .renameFailed src dst => [src, dst]
  | _ => []

/-- The call names no path, and of the descriptors only those in `S`, which it uses. -/
def Event.within (S : Set Int) (e : Event) : Prop :=
  e.paths = [] ∧ ∀ d fd, e.deed = some (d, fd) → d = .uses ∧ fd ∈ S

theorem Event.within.uses {S : Set Int} {e : Event} {fd : Int} (h : fd ∈ S)
    (paths : e.paths = [] := by rfl) (deed : e.deed = some (.uses, fd) := by rfl) : e.within S := by
  refine ⟨paths, fun d fd' named => ?_⟩
  rw [deed, Option.some.injEq, Prod.mk.injEq] at named
  exact ⟨named.1.symm, named.2 ▸ h⟩

theorem Event.within.unnamed {S : Set Int} {e : Event} (paths : e.paths = [] := by rfl)
    (deed : e.deed = none := by rfl) : e.within S := by
  refine ⟨paths, fun d fd named => ?_⟩
  rw [deed] at named
  cases named

section Uses
variable {α : Type} {n : Nat} {S : Set Int} {fd file : Int}

/-- The program opens and closes nothing, and uses the descriptors in `S`. -/
abbrev Uses (n : Nat) (S : Set Int) (x : Sys α) : Prop :=
  Within (fun os => os.files.nextFd = n) (Event.within S) x

theorem call_uses {f : Verdict → Os → Outcome Fault Os Event α} (h : ∀ v, Uses n S (f v : Sys α)) :
    Uses n S (call f) := fun os hn => h os.verdict os.answered hn

theorem alloc_uses : Uses n S alloc := by
  refine call_uses fun v os hn => ?_
  cases v with
  | fail e => exact ⟨hn, List.forall_mem_singleton.mpr .unnamed⟩
  | grant most => exact ⟨hn, List.forall_mem_nil _⟩

theorem pread_uses (h : file ∈ S) (want pos : Nat) : Uses n S (pread file want pos) := by
  refine call_uses fun v os hn => ?_
  cases v with
  | fail e => exact ⟨hn, List.forall_mem_singleton.mpr (.uses h)⟩
  | grant most =>
    simp only
    split
    · exact ⟨hn, List.forall_mem_singleton.mpr (.uses h)⟩
    · split <;> exact ⟨hn, List.forall_mem_singleton.mpr (.uses h)⟩

theorem send_uses (h : fd ∈ S) (data : Bytes) : Uses n S (send fd data) := by
  refine call_uses fun v os hn => ?_
  cases v <;> exact ⟨hn, List.forall_mem_singleton.mpr (.uses h)⟩

theorem sendAll_uses (h : fd ∈ S) (data : Bytes) : Uses n S (sendAll fd data) := by
  refine .bind (.emit (.uses h)) fun _ => .bind .get fun _ => .loop (fun sent => ?_) _ _
  refine .ite (.bind (send_uses h _) fun r => ?_) (.pure _)
  split <;> exact .pure _

theorem sendError_uses (h : fd ∈ S) (reason : Bytes) : Uses n S (sendError fd reason) :=
  .bind alloc_uses fun _ => .bind (sendAll_uses h _) fun _ => .pure _

theorem recv_uses (h : fd ∈ S) (k : Nat) : Uses n S (recv fd k) := fun os hn =>
  call_uses (f := fun v os' => _) (fun v os' hn => by
    cases v <;> exact ⟨hn, List.forall_mem_singleton.mpr (.uses h)⟩) os hn

theorem armed_uses (h : fd ∈ S) (timeoutMs : Int) (deadline : Nat) : Uses n S (armed fd timeoutMs deadline) := by
  refine .ite (fun os hn => ?_) (.pure _)
  unfold armRemaining
  simp only
  split <;> exact ⟨hn, List.forall_mem_singleton.mpr (.uses h)⟩

theorem readExact_uses (h : fd ∈ S) (leftover : Bytes) (k : Nat) (timeoutMs : Int) :
    Uses n S (readExact fd leftover k timeoutMs) := by
  refine .bind .get fun os => .bind (.loop (fun out => ?_) _ _) fun _ => .pure _
  refine .ite (.bind (armed_uses h _ _) fun _ => .ite (.bind (recv_uses h _) fun r => ?_) (.pure _)) (.pure _)
  split <;> exact .pure _

theorem readHeaderLine_uses (h : fd ∈ S) (timeoutMs : Int) : Uses n S (readHeaderLine fd timeoutMs) := by
  refine .bind .get fun os => .loop (fun line => ?_) _ _
  refine .bind (armed_uses h _ _) fun _ => .ite (.bind (recv_uses h _) fun r => ?_) (.pure _)
  split
  · exact .pure _
  · exact .pure _
  · exact .pure _
  · split
    · exact .pure _
    · exact .ite (.bind (.modify fun _ hn => hn) fun _ => .pure _) (.pure _)

theorem write_uses (h : file ∈ S) (data : Bytes) : Uses n S (write file data) := by
  refine call_uses fun v os hn => ?_
  cases v with
  | fail e => exact ⟨hn, List.forall_mem_singleton.mpr (.uses h)⟩
  | grant most =>
    simp only
    split <;> exact ⟨hn, List.forall_mem_singleton.mpr (.uses h)⟩

theorem writeAll_uses (h : file ∈ S) (data : Bytes) : Uses n S (writeAll file data) := by
  refine .bind .get fun os => .loop (fun done => ?_) _ _
  refine .ite (.bind (write_uses h _) fun r => ?_) (.pure _)
  split <;> exact .pure _

theorem flush_uses (h : fd ∈ S) (b : Batch) : Uses n S (b.flush fd) := .ite (.pure _) (sendAll_uses h _)

theorem lineLengthAt_uses (h : file ∈ S) (offset fileSize : UInt64) : Uses n S (lineLengthAt file offset fileSize) :=
  .loop (fun _ => .ite (.bind (pread_uses h _ _) fun _ => .ite (.pure _) (.ite (.pure _) (.pure _))) (.pure _)) _ _

theorem appendRange_uses (h : file ∈ S) (offset len : UInt64) (out : Bytes) :
    Uses n S (appendRange file offset len out) := by
  refine .bind alloc_uses fun _ => .bind (.loop (fun _ => ?_) _ _) fun r => ?_
  · exact .ite (.bind (pread_uses h _ _) fun _ => .ite (.pure _) (.pure _)) (.pure _)
  · cases r <;> exact .pure _

theorem streamRange_uses (h : fd ∈ S) (hfile : file ∈ S) (offset len : UInt64) :
    Uses n S (streamRange file fd offset len) := by
  refine .bind alloc_uses fun _ => .loop (fun _ => ?_) _ _
  exact .ite (.bind (pread_uses hfile _ _) fun _ => .ite (.pure _)
    (.bind (sendAll_uses h _) fun _ => .ite (.pure _) (.pure _))) (.pure _)

end Uses

section Serves
variable {α : Type} {n : Nat} {S : Set Int} {G : Request → Prop} {fd file : Int}

/-- The slice keeps `G` of its request, opens and closes nothing and uses the descriptors in `S`. -/
abbrev Serves (n : Nat) (S : Set Int) (G : Request → Prop) (x : Slice α) : Prop :=
  Within (fun j : Job => G j.req ∧ j.os.files.nextFd = n) (Event.within S) x

theorem onOs_serves {x : Sys α} (h : Uses n S x) : Serves n S G (onOs x) := fun j good =>
  ⟨⟨good.1, (h j.os good.2).1⟩, (h j.os good.2).2⟩

theorem request_serves {f : Request → Slice α} (h : ∀ r, G r → Serves n S G (f r)) :
    Serves n S G (request >>= f) := fun j good => h j.req good.1 j good

theorem setRequest_serves {f : Request → Request} (h : ∀ r, G r → G (f r)) : Serves n S G (setRequest f) :=
  fun j good => ⟨⟨h j.req good.1, good.2⟩, List.forall_mem_nil _⟩

theorem report_serves (h : fd ∈ S) (reason : Bytes) (x : α) :
    Serves n S G (do onOs (sendError fd reason); pure x : Slice α) :=
  .bind (onOs_serves (sendError_uses h reason)) fun _ => .pure _

section Get
variable (h : fd ∈ S) (hfile : file ∈ S) (tmp : Path)
include h

abbrev Reads (file : Int) (tmp : Path) (r : Request) : Prop := r.fileFd = file ∧ r.tmpPath = tmp

theorem sendHeader_serves : Serves n S (Reads file tmp) (sendHeader fd) := by
  refine request_serves fun r hr => .ite (.pure _) (.bind (onOs_serves alloc_uses) fun _ => ?_)
  refine .bind (onOs_serves (sendAll_uses h _)) fun _ => .ite (.bind ?_ fun _ => .pure _) (.pure _)
  exact setRequest_serves fun _ hr => hr

theorem endRound_serves (sp : SliceParams) (v : GetLocals) : Serves n S (Reads file tmp) (endRound fd sp v) := by
  refine .bind (onOs_serves (flush_uses h _)) fun _ => .ite (.ite (.bind ?_ fun _ => .pure _)
    (.bind ?_ fun _ => .pure _)) (.pure _)
  · exact setRequest_serves fun _ hr => hr
  · exact setRequest_serves fun _ hr => hr

theorem finishGet_serves (v : GetLocals) : Serves n S (Reads file tmp) (finishGet fd v) := by
  refine .bind (onOs_serves (flush_uses h _)) fun _ => .ite (.bind ?_ fun _ => .pure _) (.pure _)
  exact setRequest_serves fun _ hr => hr

include hfile

theorem sendLongLine_serves (sp : SliceParams) (v : GetLocals) (len : UInt64) :
    Serves n S (Reads file tmp) (sendLongLine fd sp v len) := by
  refine request_serves fun r hr => .bind (onOs_serves (flush_uses h _)) fun _ => .ite ?_ (.pure _)
  rw [hr.1]
  refine .bind (onOs_serves (streamRange_uses h hfile _ _)) fun _ => .ite ?_ (.pure _)
  refine .bind (setRequest_serves fun _ hr => hr) fun _ => ?_
  refine .bind (onOs_serves (.bind alloc_uses fun _ => .emit .unnamed)) fun _ => ?_
  exact request_serves fun _ _ => .pure _

theorem emitLine_serves (sp : SliceParams) (b : Batch) (len : UInt64) :
    Serves n S (Reads file tmp) (emitLine fd sp b len) := by
  refine request_serves fun r hr => ?_
  rw [hr.1]
  refine .ite ?_ ?_
  · refine .bind (onOs_serves (flush_uses h _)) fun _ => .ite ?_ (.pure _)
    exact .bind (onOs_serves (streamRange_uses h hfile _ _)) fun _ => .ite (.pure _) (.pure _)
  · refine .bind (onOs_serves (appendRange_uses hfile _ _ _)) fun _ => .ite (.ite ?_ (.pure _)) (.pure _)
    exact .bind (onOs_serves (flush_uses h _)) fun _ => .ite (.pure _) (.pure _)

theorem sendLine_serves (sp : SliceParams) (v : GetLocals) (len : UInt64) :
    Serves n S (Reads file tmp) (sendLine fd sp v len) := by
  refine .bind (emitLine_serves h hfile tmp sp _ _) fun b => ?_
  cases b with
  | none => exact .pure _
  | some b => exact .bind (setRequest_serves fun _ hr => hr) fun _ => .pure _

theorem getTurn_serves (sp : SliceParams) (v : GetLocals) : Serves n S (Reads file tmp) (getTurn fd sp v) := by
  refine request_serves fun r hr => .ite ?_ (.map (finishGet_serves h tmp v))
  rw [hr.1]
  refine .bind (onOs_serves (lineLengthAt_uses hfile _ _)) fun len => .ite (.pure _) (.ite ?_ (.ite ?_ ?_))
  · exact .map (sendLongLine_serves h hfile tmp sp v len)
  · exact .map (endRound_serves h tmp sp v)
  · exact sendLine_serves h hfile tmp sp v len

theorem serveGet_serves (sp : SliceParams) : Serves n S (Reads file tmp) (serveGet fd sp) := by
  refine .bind (setRequest_serves fun _ hr => hr) fun _ => ?_
  refine .bind (sendHeader_serves h tmp) fun _ => .ite (request_serves fun r hr => ?_) (.pure _)
  exact .loop (getTurn_serves h hfile tmp sp) _ _

end Get

abbrev Stores (file : Int) (tmp : Path) (r : Request) : Prop := Reads file tmp r ∧ r.started = true

theorem putTurn_serves (h : fd ∈ S) (hfile : file ∈ S) (tmp : Path) (take size done : UInt64) :
    Serves n S (Stores file tmp) (putTurn fd take size done) := by
  refine .ite (request_serves fun r hr => ?_) (.pure _)
  rw [hr.1.1]
  refine .bind (onOs_serves (readExact_uses h _ _ _)) fun x => ?_
  refine .bind (setRequest_serves fun _ hr => hr) fun _ => .ite ?_ (report_serves h _ _)
  refine .bind (onOs_serves (writeAll_uses hfile _)) fun _ => .ite ?_ (report_serves h _ _)
  exact .bind (setRequest_serves fun _ hr => hr) fun _ => .pure _

end Serves

def Request.held (r : Request) : Set Int := {fd | fd = r.clientFd ∨ fd = r.fileFd ∧ 0 ≤ fd}

/-- A request whose descriptors have been given out, with one temp file at most. -/
structure Job.Sound (j : Job) : Prop where
  apart : 0 ≤ j.req.fileFd → j.req.fileFd ≠ j.req.clientFd
  temp : j.req.tmpPath = [] ∨ j.req.tmpPath = tempPath j.req
  below : ∀ fd ∈ j.req.held, fd < (j.os.files.nextFd : Int)

structure Request.Ready (r : Request) : Prop where
  get : r.op = .get → 0 ≤ r.fileFd
  fresh : r.op = .put → r.started = false → r.fileFd = -1 ∧ r.tmpPath = []
  begun : r.op = .put → r.started = true → 0 ≤ r.fileFd ∧ r.tmpPath = tempPath r

/-- The request is still the same one, and what has been opened for it is held by it or closed. -/
structure Kept (j : Job) (l : List Event) (j' : Job) : Prop where
  fixed : j'.req.fixed = j.req.fixed
  acts : j.Sound →
    Conducts Event.deed (j.os.files.nextFd : Int) j.req.held l (j'.os.files.nextFd : Int) j'.req.held
  sound : j.Sound → j'.Sound
  paths : ∀ e ∈ l, ∀ p ∈ e.paths, p = j.req.path ∨ p = tempPath j.req

theorem fixed_fields {r r' : Request} (h : r'.fixed = r.fixed) :
    r'.op = r.op ∧ r'.clientFd = r.clientFd ∧ r'.path = r.path ∧ tempPath r' = tempPath r := by
  simp only [Request.fixed, Request.mk.injEq] at h
  have id : r'.id = r.id := h.1
  have path : r'.path = r.path := by tauto
  refine ⟨by tauto, by tauto, path, ?_⟩
  rw [tempPath, tempPath, path, id]

theorem held_congr {r r' : Request} (client : r'.clientFd = r.clientFd) (file : r'.fileFd = r.fileFd) :
    r'.held = r.held := by
  rw [Request.held, Request.held, client, file]

theorem held_client (r : Request) : r.clientFd ∈ r.held := .inl rfl

theorem held_file {r : Request} (h : 0 ≤ r.fileFd) : r.fileFd ∈ r.held := .inr ⟨rfl, h⟩

theorem held_none {r : Request} (h : r.fileFd = -1) : r.held = {r.clientFd} := by
  ext fd
  simp only [Request.held, Set.mem_ofPred_eq, Set.mem_singleton_iff, h]
  omega

namespace Kept
variable {j j' j'' : Job} {l l' : List Event}

theorem append (h : Kept j l j') (h' : Kept j' l' j'') : Kept j (l ++ l') j'' where
  fixed := h'.fixed.trans h.fixed
  acts sound := (h.acts sound).append sound.below (h'.acts (h.sound sound))
  sound sound := h'.sound (h.sound sound)
  paths := by
    obtain ⟨-, -, path, temp⟩ := fixed_fields h.fixed
    refine List.forall_mem_append.mpr ⟨h.paths, ?_⟩
    rw [← path, ← temp]
    exact h'.paths

theorem still (fixed : j'.req.fixed = j.req.fixed) (file : j'.req.fileFd = j.req.fileFd)
    (tmp : j'.req.tmpPath = j.req.tmpPath ∨ j'.req.tmpPath = [] ∨ j'.req.tmpPath = tempPath j.req)
    (next : j'.os.files.nextFd = j.os.files.nextFd)
    (uses : ∀ e ∈ l, ∀ d fd, e.deed = some (d, fd) → d = .uses ∧ fd ∈ j.req.held)
    (paths : ∀ e ∈ l, ∀ p ∈ e.paths, p = j.req.path ∨ p = tempPath j.req) : Kept j l j' := by
  obtain ⟨-, client, -, temp⟩ := fixed_fields fixed
  have held := held_congr client file
  refine ⟨fixed, fun _ => ?_, fun sound => ⟨?_, ?_, ?_⟩, paths⟩
  · rw [held, next]
    exact .uses le_rfl uses
  · rw [file, client]
    exact sound.apart
  · rw [temp]
    rcases tmp with tmp | tmp
    · rw [tmp]
      exact sound.temp
    · exact tmp
  · rw [held, next]
    exact sound.below

theorem within (fixed : j'.req.fixed = j.req.fixed) (file : j'.req.fileFd = j.req.fileFd)
    (tmp : j'.req.tmpPath = j.req.tmpPath) (next : j'.os.files.nextFd = j.os.files.nextFd)
    (uses : ∀ e ∈ l, e.within j.req.held) : Kept j l j' := by
  refine .still fixed file (.inl tmp) next (fun e he => (uses e he).2) fun e he p hp => ?_
  rw [(uses e he).1] at hp
  cases hp

theorem nil : Kept j [] j := .within rfl rfl rfl rfl (List.forall_mem_nil _)

theorem set (f : Request → Request) (fixed : (f j.req).fixed = j.req.fixed := by rfl)
    (file : (f j.req).fileFd = j.req.fileFd := by rfl) (tmp : (f j.req).tmpPath = j.req.tmpPath := by rfl) :
    Kept j [] { j with req := f j.req } :=
  .within fixed file tmp rfl (List.forall_mem_nil _)

theorem serves {α : Type} {x : Slice α} {G : Request → Prop} (fixed : (x j).state.req.fixed = j.req.fixed)
    (hx : Serves j.os.files.nextFd j.req.held G x) (good : G j.req)
    (keeps : ∀ r, G r → r.fileFd = j.req.fileFd ∧ r.tmpPath = j.req.tmpPath) :
    wp x j fun _ j' l => Kept j l j' ∧ G j'.req := by
  obtain ⟨⟨good', next⟩, uses⟩ := hx j ⟨good, rfl⟩
  obtain ⟨file, tmp⟩ := keeps _ good'
  exact ⟨.within fixed file tmp next uses, good'⟩

theorem onOs {α : Type} {x : Sys α} (hx : Uses j.os.files.nextFd j.req.held x) :
    wp (onOs x) j fun _ j' l => j'.req = j.req ∧ Kept j l j' := by
  obtain ⟨next, uses⟩ := hx j.os rfl
  exact ⟨rfl, .within rfl rfl rfl next uses⟩

theorem report {α : Type} {fd : Int} (h : fd ∈ j.req.held) (reason : Bytes) (x : α) :
    wp (do LinkScheduling.onOs (sendError fd reason); pure x : Slice α) j
      fun v j' l => (∀ y, v = .ok y → y = x) ∧ Kept j l j' := by
  refine wp_seq (onOs (sendError_uses h reason)) ?_ ?_
  · rintro ⟨⟩ j₁ l₁ ⟨-, kept⟩
    rw [wp_pure, List.append_nil]
    refine ⟨fun y hy => ?_, kept⟩
    cases hy
    rfl
  · rintro e j₁ l₁ ⟨-, kept⟩
    refine ⟨fun y hy => ?_, kept⟩
    cases hy

theorem client (h : Kept j l j') : j.req.clientFd ∈ j'.req.held :=
  .inl (fixed_fields h.fixed).2.1.symm

theorem opened {r : Request} {os os' : Os} (file : r.fileFd = -1)
    (next : os'.files.nextFd = os.files.nextFd + 1) :
    Kept ⟨r, os⟩ [.opened (tempPath r) os.files.nextFd]
      ⟨{ r with tmpPath := tempPath r, fileFd := os.files.nextFd }, os'⟩ := by
  have held : Request.held { r with tmpPath := tempPath r, fileFd := os.files.nextFd } =
      insert (os.files.nextFd : Int) r.held := by
    ext fd
    simp only [Request.held, Set.mem_ofPred_eq, Set.mem_insert_iff, file]
    omega
  have acts : Conducts Event.deed (os.files.nextFd : Int) r.held [.opened (tempPath r) os.files.nextFd]
      (os'.files.nextFd : Int) (Request.held { r with tmpPath := tempPath r, fileFd := os.files.nextFd }) := by
    rw [held]
    exact .opens rfl (by omega)
  refine ⟨rfl, fun _ => acts, fun sound => ⟨fun _ => ?_, .inr rfl, acts.below sound.below⟩, ?_⟩
  · have client := sound.below _ (held_client r)
    simp only at client ⊢
    omega
  · exact List.forall_mem_singleton.mpr fun p hp => .inr (List.mem_singleton.mp hp)

theorem closed {r : Request} {os os' : Os} (file : 0 ≤ r.fileFd) (next : os'.files.nextFd = os.files.nextFd) :
    Kept ⟨r, os⟩ [.closed r.fileFd] ⟨{ r with fileFd := -1 }, os'⟩ := by
  have acts : (Job.mk r os).Sound → Conducts Event.deed (os.files.nextFd : Int) r.held [.closed r.fileFd]
      (os'.files.nextFd : Int) (Request.held { r with fileFd := -1 }) := by
    intro sound
    have apart := sound.apart file
    have held : Request.held { r with fileFd := -1 } = r.held \ {r.fileFd} := by
      ext fd
      simp only [Request.held, Set.mem_ofPred_eq, Set.mem_sdiff, Set.mem_singleton_iff] at apart ⊢
      omega
    rw [held]
    exact .closes rfl (held_file file) (by omega)
  refine ⟨rfl, acts, fun sound => ⟨fun h => ?_, sound.temp, (acts sound).below sound.below⟩, ?_⟩
  · cases h
  · exact List.forall_mem_singleton.mpr fun p hp => absurd hp List.not_mem_nil

end Kept

section Put
variable {j : Job}

structure Request.Storing (r : Request) : Prop where
  started : r.started = true
  file : 0 ≤ r.fileFd
  tmp : r.tmpPath = tempPath r

theorem greet_kept {fd : Int} (h : fd ∈ j.req.held) (file : 0 ≤ j.req.fileFd) (tmp : j.req.tmpPath = tempPath j.req) :
    wp (do
      onOs alloc
      if ← onOs (sendAll fd (formatOk 0)) then
        setRequest fun r => { r with started := true }
        pure true
      else pure false : Slice Bool) j fun v j' l => Kept j l j' ∧ (v = .ok true → j'.req.Storing) := by
  refine wp_seq (Kept.onOs alloc_uses) ?_ ?_
  · rintro ⟨⟩ ⟨r₁, os₁⟩ l₁ ⟨hr₁, kept₁⟩
    subst hr₁
    refine wp_seq (Kept.onOs (sendAll_uses h _)) ?_ ?_
    · rintro ok ⟨r₂, os₂⟩ l₂ ⟨hr₂, kept₂⟩
      subst hr₂
      cases ok with
      | false =>
        rw [if_neg (by simp), wp_pure, List.append_nil]
        exact ⟨kept₁.append kept₂, fun h => by cases h⟩
      | true =>
        rw [if_pos rfl, wp_setRequest_bind, wp_pure]
        exact ⟨kept₁.append (kept₂.append (.set fun r => { r with started := true })), fun _ => ⟨rfl, file, tmp⟩⟩
    · rintro e j₂ l₂ ⟨-, kept₂⟩
      exact ⟨kept₁.append kept₂, fun h => by cases h⟩
  · rintro e j₁ l₁ ⟨-, kept₁⟩
    exact ⟨kept₁, fun h => by cases h⟩

theorem beginPut_kept (put : j.req.op = .put) (ready : j.req.Ready) :
    wp (beginPut j.req.clientFd) j fun v j' l => Kept j l j' ∧ (v = .ok true → j'.req.Storing) := by
  rw [beginPut, wp_request_bind]
  by_cases started : j.req.started = true
  · rw [if_pos started, wp_pure]
    obtain ⟨file, tmp⟩ := ready.begun put started
    exact ⟨.nil, fun _ => ⟨started, file, tmp⟩⟩
  · rw [if_neg started]
    obtain ⟨file, tmp⟩ := ready.fresh put (by simpa using started)
    refine wp_seq (Kept.onOs alloc_uses) ?_ ?_
    · rintro ⟨⟩ ⟨r₁, os₁⟩ l₁ ⟨hr₁, kept₁⟩
      subst hr₁
      rw [wp_setRequest_bind]
      refine wp_seq (onOs_spec (openTrunc_spec _ os₁)) ?_ ?_
      · rintro n ⟨r₂, os₂⟩ l₂ ⟨hr₂, -, ⟨hn, files, rfl⟩ | ⟨hn, files, rfl⟩⟩
        · cases hn
          subst hr₂
          rw [wp_setRequest_bind]
          have kept₂ : Kept ⟨j.req, os₁⟩ [.openFailed (tempPath j.req)]
              ⟨{ j.req with tmpPath := [], fileFd := -1 }, os₂⟩ := by
            refine .still rfl file.symm (.inr (.inl rfl)) (by rw [files]) ?_ ?_
            · exact List.forall_mem_singleton.mpr fun d fd named => by cases named
            · exact List.forall_mem_singleton.mpr fun p hp => .inr (List.mem_singleton.mp hp)
          refine wp_mono (Kept.report kept₂.client _ _) ?_
          rintro v j₃ l₃ ⟨hv, kept₃⟩
          exact ⟨kept₁.append (kept₂.append kept₃), fun h => absurd (hv _ h) (by simp)⟩
        · cases hn
          subst hr₂
          rw [wp_setRequest_bind]
          have kept₂ : Kept ⟨j.req, os₁⟩ [.opened (tempPath j.req) os₁.files.nextFd]
              ⟨{ j.req with tmpPath := tempPath j.req, fileFd := os₁.files.nextFd }, os₂⟩ :=
            .opened file (by rw [files]; rfl)
          refine wp_mono (greet_kept kept₂.client (Int.natCast_nonneg _) rfl) ?_
          rintro v j₃ l₃ ⟨kept₃, storing⟩
          exact ⟨kept₁.append (kept₂.append kept₃), storing⟩
      · rintro e j₂ l₂ ⟨-, -, ⟨h, -⟩ | ⟨h, -⟩⟩ <;> cases h
    · rintro e j₁ l₁ ⟨-, kept₁⟩
      exact ⟨kept₁, fun h => by cases h⟩

theorem rename_calls (src dst : Path) (os : Os) : wp (rename src dst) os fun v os' l => (∃ ok, v = .ok ok) ∧
    os'.files.nextFd = os.files.nextFd ∧ ∀ e ∈ l, e.deed = none ∧ ∀ p ∈ e.paths, p = src ∨ p = dst := by
  rw [rename, wp_call]
  cases os.verdict with
  | fail e => exact ⟨⟨_, rfl⟩, rfl, by simp [Event.deed, Event.paths]⟩
  | grant most =>
    simp only [wp, Os.answered_files]
    split
    · exact ⟨⟨_, rfl⟩, rfl, by simp [Event.deed, Event.paths]⟩
    · exact ⟨⟨_, rfl⟩, rfl, by simp [Event.deed, Event.paths]⟩

theorem acknowledge_kept {fd : Int} (h : fd ∈ j.req.held) : wp (do
      onOs alloc
      if ← onOs (sendAll fd (formatOk 0)) then pure .done else pure .failed : Slice SliceResult) j
      fun v j' l => Kept j l j' ∧ v ≠ .ok .preempted := by
  refine wp_seq (Kept.onOs alloc_uses) ?_ ?_
  · rintro ⟨⟩ ⟨r₁, os₁⟩ l₁ ⟨hr₁, kept₁⟩
    subst hr₁
    refine wp_seq (Kept.onOs (sendAll_uses h _)) ?_ ?_
    · rintro ok j₂ l₂ ⟨-, kept₂⟩
      have kept := kept₁.append kept₂
      cases ok with
      | false =>
        rw [if_neg (by simp), wp_pure, List.append_nil]
        exact ⟨kept, by simp⟩
      | true =>
        rw [if_pos rfl, wp_pure, List.append_nil]
        exact ⟨kept, by simp⟩
    · rintro e j₂ l₂ ⟨-, kept₂⟩
      exact ⟨kept₁.append kept₂, by simp⟩
  · rintro e j₁ l₁ ⟨-, kept₁⟩
    exact ⟨kept₁, by simp⟩

theorem installPut_kept (storing : j.req.Storing) :
    wp (installPut j.req.clientFd) j fun v j' l => Kept j l j' ∧ v ≠ .ok .preempted := by
  rw [installPut, wp_request_bind, wp_close_bind, wp_setRequest_bind]
  have kept₁ : Kept j [.closed j.req.fileFd]
      ⟨{ j.req with fileFd := -1 }, { j.os with files := j.os.files.close j.req.fileFd }⟩ :=
    .closed storing.file rfl
  refine wp_seq (onOs_spec (rename_calls _ _ _)) ?_ ?_
  · rintro ok ⟨r₂, os₂⟩ l₂ ⟨hr₂, -, next, calls⟩
    subst hr₂
    have paths : ∀ e ∈ l₂, ∀ p ∈ e.paths, p = j.req.path ∨ p = tempPath j.req := by
      intro e he p hp
      rw [← storing.tmp]
      exact ((calls e he).2 p hp).symm
    have uses : ∀ e ∈ l₂, ∀ d fd, e.deed = some (d, fd) → d = .uses ∧ fd ∈ Request.held { j.req with fileFd := -1 } := by
      intro e he d fd named
      rw [(calls e he).1] at named
      cases named
    cases ok with
    | false =>
      have kept₂ : Kept j (.closed j.req.fileFd :: l₂) ⟨{ j.req with fileFd := -1 }, os₂⟩ :=
        kept₁.append (.still rfl rfl (.inl rfl) next uses paths)
      refine wp_mono (Kept.report kept₂.client _ _) ?_
      rintro v j₃ l₃ ⟨hv, kept₃⟩
      exact ⟨kept₂.append kept₃, fun h => absurd (hv _ h) (by simp)⟩
    | true =>
      rw [if_pos rfl, wp_setRequest_bind]
      have kept₂ : Kept j (.closed j.req.fileFd :: l₂) ⟨{ j.req with fileFd := -1, tmpPath := [] }, os₂⟩ :=
        kept₁.append (.still rfl rfl (.inr (.inl rfl)) next uses paths)
      refine wp_mono (acknowledge_kept kept₂.client) ?_
      rintro v j₃ l₃ ⟨kept₃, hv⟩
      exact ⟨kept₂.append kept₃, hv⟩
  · rintro e j₂ l₂ ⟨-, ⟨ok, h⟩, -⟩
    cases h

theorem Request.Storing.ready {r : Request} (h : r.Storing) (put : r.op = .put) : r.Ready where
  get get := by
    rw [put] at get
    cases get
  fresh _ started := by
    rw [h.started] at started
    cases started
  begun _ _ := ⟨h.file, h.tmp⟩

theorem putLoop_kept {fd : Int} (h : fd ∈ j.req.held) (storing : j.req.Storing) (take size : UInt64) (fuel : Nat) :
    wp (Prog.loop .spent (putTurn fd take size) fuel 0) j fun _ j' l => Kept j l j' ∧ j'.req.Storing := by
  have fixed : ((Prog.loop .spent (putTurn fd take size) fuel 0) j).state.req.fixed = j.req.fixed :=
    (Moves.loop (putTurn_apart fd take size) fuel 0 j).fixed
  refine wp_mono (Kept.serves fixed (.loop (putTurn_serves h (held_file storing.file) j.req.tmpPath take size) fuel 0)
    ⟨⟨rfl, rfl⟩, storing.started⟩ fun r hr => hr.1) ?_
  rintro v j' l ⟨kept, ⟨file, tmp⟩, started⟩
  refine ⟨kept, started, file ▸ storing.file, ?_⟩
  rw [tmp, storing.tmp, (fixed_fields kept.fixed).2.2.2]

theorem servePut_kept (sp : SliceParams) (put : j.req.op = .put) (ready : j.req.Ready) :
    wp (servePut j.req.clientFd sp) j fun v j' l => Kept j l j' ∧ (v = .ok .preempted → j'.req.Ready) := by
  rw [servePut, wp_setRequest_bind]
  have kept₀ : Kept j [] (counted j) := .set fun r => { r with rounds := r.rounds + 1 }
  have ready₀ : (counted j).req.Ready := ⟨ready.get, ready.fresh, ready.begun⟩
  refine wp_seq (@beginPut_kept (counted j) put ready₀) ?_ ?_
  · rintro ok j₁ l₁ ⟨kept₁, storing⟩
    have kept₁ := kept₀.append kept₁
    cases ok with
    | false =>
      rw [if_neg (by simp), wp_pure, List.append_nil]
      exact ⟨kept₁, fun h => by cases h⟩
    | true =>
      rw [if_pos rfl, wp_request_bind]
      refine wp_seq (Kept.onOs alloc_uses) ?_ ?_
      · rintro ⟨⟩ ⟨r₂, os₂⟩ l₂ ⟨hr₂, kept₂⟩
        subst hr₂
        refine wp_seq (@putLoop_kept ⟨j₁.req, os₂⟩ _ kept₁.client (storing rfl) _ _ _) ?_ ?_
        · rintro ok j₃ l₃ ⟨kept₃, storing₃⟩
          have kept := kept₁.append (kept₂.append kept₃)
          cases ok with
          | false =>
            rw [if_neg (by simp), wp_pure, List.append_nil]
            exact ⟨kept, fun h => by cases h⟩
          | true =>
            rw [if_pos rfl, wp_request_bind]
            obtain ⟨op, client, -⟩ := fixed_fields kept.fixed
            split
            · rw [wp_pure, List.append_nil]
              exact ⟨kept, fun _ => storing₃.ready (op.trans put)⟩
            · have installs := installPut_kept storing₃
              rw [client] at installs
              refine wp_mono installs ?_
              rintro v j₄ l₄ ⟨kept₄, hv⟩
              exact ⟨by simpa using kept.append kept₄, fun h => absurd h hv⟩
        · rintro e j₃ l₃ ⟨kept₃, -⟩
          exact ⟨kept₁.append (kept₂.append kept₃), fun h => by cases h⟩
      · rintro e j₂ l₂ ⟨-, kept₂⟩
        exact ⟨kept₁.append kept₂, fun h => by cases h⟩
  · rintro e j₁ l₁ ⟨kept₁, -⟩
    exact ⟨kept₀.append kept₁, fun h => by cases h⟩

end Put

section Either
variable {j : Job}

theorem serveGet_kept (sp : SliceParams) (get : j.req.op = .get) (ready : j.req.Ready) :
    wp (serveGet j.req.clientFd sp) j fun _ j' l => Kept j l j' ∧ j'.req.Ready := by
  have file := ready.get get
  have fixed := (serveGet_moves j.req.clientFd sp j).fixed
  refine wp_mono (Kept.serves fixed (serveGet_serves (held_client _) (held_file file) j.req.tmpPath sp)
    ⟨rfl, rfl⟩ fun r hr => hr) ?_
  rintro v j' l ⟨kept, same, -⟩
  have op := (fixed_fields kept.fixed).1
  refine ⟨kept, fun _ => same ▸ file, fun put => ?_, fun put => ?_⟩
  · rw [op, get] at put
    cases put
  · rw [op, get] at put
    cases put

theorem serveOrReport_kept (sp : SliceParams) (ready : j.req.Ready) :
    wp (serveOrReport j.req.clientFd sp) j fun v j' l => Kept j l j' ∧ (v = .ok .preempted → j'.req.Ready) := by
  have slice : wp (serveSlice j.req.clientFd sp) j fun v j' l =>
      Kept j l j' ∧ (v = .ok .preempted → j'.req.Ready) := by
    rw [serveSlice, wp_request_bind]
    cases op : j.req.op with
    | get => exact wp_mono (serveGet_kept sp op ready) fun v j' l h => ⟨h.1, fun _ => h.2⟩
    | put => exact servePut_kept sp op ready
  rw [serveOrReport, wp_rescue]
  refine wp_mono slice ?_
  rintro (e | res) j₁ l₁ ⟨kept₁, ready₁⟩
  · cases e with
    | thrown =>
      refine wp_mono (Kept.report kept₁.client _ _) ?_
      rintro v j₂ l₂ ⟨hv, kept₂⟩
      exact ⟨kept₁.append kept₂, fun h => absurd (hv _ h) (by simp)⟩
    | spent =>
      simp only
      rw [wp_stop, List.append_nil]
      exact ⟨kept₁, fun h => by cases h⟩
  · exact ⟨kept₁, ready₁⟩

theorem unlink_calls (p : Path) (os : Os) : wp (unlink p) os fun v os' l => (∃ ok, v = .ok ok) ∧
    os'.files.nextFd = os.files.nextFd ∧ ∀ e ∈ l, e.deed = none ∧ e.paths = [p] := by
  rw [unlink, wp_call]
  cases os.verdict with
  | fail e => exact ⟨⟨_, rfl⟩, rfl, by simp [Event.deed, Event.paths]⟩
  | grant most =>
    simp only [wp, Os.answered_files]
    cases os.files.names p with
    | none => exact ⟨⟨_, rfl⟩, rfl, by simp [Event.deed, Event.paths]⟩
    | some i => exact ⟨⟨_, rfl⟩, rfl, by simp [Event.deed, Event.paths]⟩

theorem unlinkTemp_kept (j : Job) {p : Path} (temp : p = [] ∨ p = tempPath j.req) : wp (do
      if p ≠ [] then
        let _ ← onOs (unlink p)
        setRequest fun r => { r with tmpPath := [] }
      : Slice Unit) j fun v j' l => v = .ok () ∧ Kept j l j' ∧ j'.req.fileFd = j.req.fileFd := by
  by_cases hp : p = []
  · rw [if_neg (not_not.mpr hp)]
    exact ⟨rfl, .nil, rfl⟩
  · rw [if_pos hp]
    refine wp_seq (onOs_spec (unlink_calls p j.os)) ?_ ?_
    · rintro ok ⟨r₁, os₁⟩ l₁ ⟨hr₁, -, next, calls⟩
      subst hr₁
      have kept : Kept j l₁ ⟨{ j.req with tmpPath := [] }, os₁⟩ := by
        refine .still rfl rfl (.inr (.inl rfl)) next (fun e he d fd named => ?_) fun e he q hq => ?_
        · rw [(calls e he).1] at named
          cases named
        · rw [(calls e he).2, List.mem_singleton] at hq
          exact .inr (hq.trans (temp.resolve_left hp))
      refine ⟨rfl, ?_, rfl⟩
      change Kept j (l₁ ++ []) ⟨{ j.req with tmpPath := [] }, os₁⟩
      rw [List.append_nil]
      exact kept
    · rintro e j₁ l₁ ⟨-, ⟨ok, h⟩, -⟩
      cases h

theorem releaseRequest_kept (sound : j.Sound) :
    wp releaseRequest j fun v j' l => v = .ok () ∧ Kept j l j' ∧ j'.req.fileFd < 0 := by
  rw [releaseRequest, wp_request_bind]
  by_cases file : j.req.fileFd ≥ 0
  · simp only [if_pos file]
    rw [wp_close_bind, wp_setRequest_bind]
    have kept₁ : Kept j [.closed j.req.fileFd]
        ⟨{ j.req with fileFd := -1 }, { j.os with files := j.os.files.close j.req.fileFd }⟩ := .closed file rfl
    refine wp_mono (unlinkTemp_kept _ sound.temp) ?_
    rintro v j' l ⟨hv, kept, closed⟩
    exact ⟨hv, kept₁.append kept, lt_of_eq_of_lt closed (show (-1 : Int) < 0 by decide)⟩
  · simp only [if_neg file]
    refine wp_mono (unlinkTemp_kept j sound.temp) ?_
    rintro v j' l ⟨hv, kept, closed⟩
    exact ⟨hv, kept, by omega⟩

theorem finalise_closes (sound : j.Sound) : wp finalise j fun v j' l => v = .ok () ∧
    Conducts Event.deed (j.os.files.nextFd : Int) j.req.held l (j'.os.files.nextFd : Int) ∅ ∧
      ∀ e ∈ l, ∀ p ∈ e.paths, p = j.req.path ∨ p = tempPath j.req := by
  refine wp_seq (releaseRequest_kept sound) ?_ ?_
  · rintro ⟨⟩ j₁ l₁ ⟨-, kept, file⟩
    have held : j₁.req.held \ {j₁.req.clientFd} = ∅ := by
      refine Set.eq_empty_of_forall_notMem fun fd h => ?_
      rcases h with ⟨client | ⟨same, nonneg⟩, other⟩
      · exact other client
      · omega
    have closes : Conducts Event.deed (j₁.os.files.nextFd : Int) j₁.req.held [.closed j₁.req.clientFd]
        (j₁.os.files.nextFd : Int) ∅ := by
      rw [← held]
      exact .closes rfl (held_client _) le_rfl
    refine ⟨rfl, (kept.acts sound).append sound.below closes, ?_⟩
    refine List.forall_mem_append.mpr ⟨kept.paths, ?_⟩
    exact List.forall_mem_singleton.mpr fun p hp => absurd hp List.not_mem_nil
  · rintro e j₁ l₁ ⟨h, -⟩
    cases h

end Either

section Admission
variable {own : Set Int} {os : Os}

theorem Uses.conducts {α : Type} {x : Sys α} (h : Uses os.files.nextFd own x) : wp x os fun _ os' l =>
    Conducts Event.deed (os.files.nextFd : Int) own l (os'.files.nextFd : Int) own ∧ ∀ e ∈ l, e.paths = [] := by
  obtain ⟨next, uses⟩ := h os rfl
  refine ⟨?_, fun e he => (uses e he).1⟩
  rw [next]
  exact .uses le_rfl fun e he => (uses e he).2

theorem answer_closes {fd : Int} (held : fd ∈ own) (below : ∀ fd ∈ own, fd < (os.files.nextFd : Int)) (reply : Bytes) :
    wp (answer fd reply) os fun _ os' l =>
      Conducts Event.deed (os.files.nextFd : Int) own l (os'.files.nextFd : Int) (own \ {fd}) ∧
        ∀ e ∈ l, e.paths = [] := by
  refine wp_seq (wp_and (Uses.conducts (sendAll_uses held reply)) (sendAll_spec fd reply os)) ?_ ?_
  · rintro ok os₁ l₁ ⟨⟨sends, paths⟩, -⟩
    refine ⟨sends.append below (.closes rfl held le_rfl), List.forall_mem_append.mpr ⟨paths, ?_⟩⟩
    exact List.forall_mem_singleton.mpr rfl
  · rintro e os₁ l₁ ⟨-, ok, h, -⟩
    cases h

theorem openRead_calls (path : Path) (os : Os) : wp (openRead path) os fun v os' l =>
    (∃ e, l = [e] ∧ e.paths = [path] ∧ e.deed = none ∧ v = .ok none ∧ os'.files.nextFd = os.files.nextFd) ∨
      (l = [.opened path os.files.nextFd] ∧ v = .ok (some (os.files.nextFd : Int)) ∧
        os'.files.nextFd = os.files.nextFd + 1) := by
  rw [openRead, wp_call]
  cases os.verdict with
  | fail e => exact .inl ⟨_, rfl, rfl, rfl, rfl, rfl⟩
  | grant most =>
    simp only [wp, Os.answered_files]
    split
    · exact .inl ⟨_, rfl, rfl, rfl, rfl, rfl⟩
    · exact .inr ⟨rfl, rfl, rfl⟩

theorem fstat_uses {n : Nat} {S : Set Int} {file : Int} (h : file ∈ S) : Uses n S (fstat file) := by
  refine call_uses fun v os hn => ?_
  cases v with
  | fail e => exact ⟨hn, List.forall_mem_singleton.mpr (.uses h)⟩
  | grant most =>
    simp only
    split
    · exact ⟨hn, List.forall_mem_singleton.mpr (.uses h)⟩
    · exact ⟨hn, List.forall_mem_nil _⟩

theorem fstat_returns (file : Int) (os : Os) : wp (fstat file) os fun v _ _ => ∃ size, v = .ok size := by
  rw [fstat, wp_call]
  cases os.verdict with
  | fail e => exact ⟨_, rfl⟩
  | grant most =>
    simp only [wp, Os.answered_files]
    split <;> exact ⟨_, rfl⟩

theorem openGet_conducts (path : Path) (below : ∀ fd ∈ own, fd < (os.files.nextFd : Int)) :
    wp (openGet path) os fun v os' l => (∀ e ∈ l, ∀ p ∈ e.paths, p = path) ∧
      ((v = .ok none ∧ Conducts Event.deed (os.files.nextFd : Int) own l (os'.files.nextFd : Int) own) ∨
        ∃ size, v = .ok (some ((os.files.nextFd : Int), size)) ∧ Conducts Event.deed (os.files.nextFd : Int) own l
          (os'.files.nextFd : Int) (insert (os.files.nextFd : Int) own)) := by
  refine wp_seq (openRead_calls path os) ?_ ?_
  · rintro n os₁ l₁ (⟨e, rfl, paths, deed, hn, next⟩ | ⟨rfl, hn, next⟩)
    · cases hn
      rw [wp_pure, List.append_nil]
      refine ⟨List.forall_mem_singleton.mpr fun p hp => ?_, .inl ⟨rfl, ?_⟩⟩
      · rwa [paths, List.mem_singleton] at hp
      · rw [next]
        refine .uses le_rfl (List.forall_mem_singleton.mpr fun d fd named => ?_)
        rw [deed] at named
        cases named
    · cases hn
      have opens : Conducts Event.deed (os.files.nextFd : Int) own [.opened path os.files.nextFd]
          (os₁.files.nextFd : Int) (insert (os.files.nextFd : Int) own) := .opens rfl (by omega)
      have opened : ∀ p ∈ (Event.opened path os.files.nextFd).paths, p = path := fun p => List.mem_singleton.mp
      refine wp_seq (wp_and (Uses.conducts (fstat_uses (Set.mem_insert _ own))) (fstat_returns _ _)) ?_ ?_
      · rintro size os₂ l₂ ⟨⟨stats, paths⟩, -⟩
        have kept := opens.append below stats
        have named : ∀ e ∈ l₂, ∀ p ∈ e.paths, p = path := by
          intro e he p hp
          rw [paths e he] at hp
          cases hp
        cases size with
        | some size =>
          rw [wp_pure, List.append_nil]
          exact ⟨List.forall_mem_cons.mpr ⟨opened, named⟩, .inr ⟨_, rfl, kept⟩⟩
        | none =>
          have new : (os.files.nextFd : Int) ∉ own := fun held => lt_irrefl _ (below _ held)
          have closes : Conducts Event.deed (os₂.files.nextFd : Int) (insert (os.files.nextFd : Int) own)
              [.closed os.files.nextFd] (os₂.files.nextFd : Int) own := by
            have shut : Conducts Event.deed (os₂.files.nextFd : Int) (insert (os.files.nextFd : Int) own)
                [.closed os.files.nextFd] (os₂.files.nextFd : Int)
                (insert (os.files.nextFd : Int) own \ {(os.files.nextFd : Int)}) :=
              .closes rfl (Set.mem_insert _ _) le_rfl
            rwa [Set.insert_sdiff_self_of_notMem new] at shut
          have closed := kept.append below closes
          rw [List.append_assoc] at closed
          refine ⟨?_, .inl ⟨rfl, closed⟩⟩
          have all : ∀ e ∈ l₂ ++ [.closed os.files.nextFd], ∀ p ∈ e.paths, p = path := by
            refine List.forall_mem_append.mpr ⟨named, ?_⟩
            exact List.forall_mem_singleton.mpr fun p hp => absurd hp List.not_mem_nil
          exact List.forall_mem_cons.mpr ⟨opened, all⟩
      · rintro e os₂ l₂ ⟨-, size, h⟩
        cases h
  · rintro e os₁ l₁ (⟨-, -, -, -, h, -⟩ | ⟨-, h, -⟩) <;> cases h

end Admission

end LinkScheduling
