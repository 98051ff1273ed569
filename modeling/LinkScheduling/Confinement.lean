import LinkScheduling.Drain
import LinkScheduling.Holdings
import LinkScheduling.Requests

/-! Path confinement. A file name that admission lets through is one path component, and so is
its temp file's; every path that is passed to `open`, `rename` or `unlink` is the directory's
with such a component behind it, and therefore names a direct child of that directory. -/

namespace LinkScheduling
open Effect Handles

def slash : UInt8 := 47

/-- One path component that is neither the directory itself nor its parent. -/
structure Component (c : Bytes) : Prop where
  nonempty : c ≠ []
  slash : slash ∉ c
  nul : 0 ∉ c
  dot : c ≠ ascii "."
  dotdot : c ≠ ascii ".."

/-- What the kernel sees of a string: the bytes before the first NUL. -/
def cString (p : Path) : Path := p.takeWhile (· != 0)

/-- One step of the resolution of a path, from the directory with the names `dir`. -/
def walk (dir : List Bytes) (c : Bytes) : List Bytes :=
  if c = [] ∨ c = ascii "." then dir else if c = ascii ".." then dir.dropLast else dir ++ [c]

/-- The lexical resolution of a path in the working directory `cwd`, as POSIX has it where no
component is a symbolic link: the names from the root on. The empty path resolves to nothing. -/
def resolve (cwd : List Bytes) (p : Path) : Option (List Bytes) :=
  if p = [] then none else some ((p.splitOn slash).foldl walk (if p.head? = some slash then [] else cwd))

theorem Component.walk {c : Bytes} (h : Component c) (dir : List Bytes) : walk dir c = dir ++ [c] := by
  rw [LinkScheduling.walk, if_neg (not_or.mpr ⟨h.nonempty, h.dot⟩), if_neg h.dotdot]

structure Names (dir p : Path) (c : Bytes) : Prop where
  component : Component c
  path : p = dir ++ ascii "/" ++ c
  whole : 0 ∉ dir → cString p = p
  child : ∀ cwd names, resolve cwd dir = some names → resolve cwd p = some (names ++ [c])

theorem Component.names {c : Bytes} (h : Component c) (dir : Path) : Names dir (dir ++ ascii "/" ++ c) c where
  component := h
  path := rfl
  whole nul := by
    refine List.takeWhile_eq_self_iff.mpr fun b hb => ?_
    rw [bne_iff_ne]
    rintro rfl
    simp only [List.append_assoc, List.mem_append] at hb
    rcases hb with hb | hb | hb
    · exact nul hb
    · exact absurd hb (by decide)
    · exact h.nul hb
  child cwd names resolved := by
    unfold resolve at resolved ⊢
    have nonempty : dir ≠ [] := by
      intro empty
      rw [if_pos empty] at resolved
      cases resolved
    have split : (dir ++ ascii "/" ++ c).splitOn LinkScheduling.slash = dir.splitOn LinkScheduling.slash ++ [c] := by
      rw [List.append_assoc]
      exact (List.splitOn_append_cons_self dir c).trans (by rw [List.splitOn_eq_singleton h.slash])
    have head : (dir ++ ascii "/" ++ c).head? = dir.head? := by
      rw [List.append_assoc, List.head?_append_of_ne_nil _ nonempty]
    rw [if_neg nonempty, Option.some.injEq] at resolved
    rw [if_neg (by simp [nonempty]), split, head, List.foldl_append, resolved]
    exact congrArg some (h.walk names)

def Confined (dir p : Path) : Prop := ∃ c, Names dir p c

theorem isFilenameSafe_iff (c : Bytes) : isFilenameSafe c = true ↔ Component c := by
  simp only [isFilenameSafe, Bool.and_eq_true, bne_iff_ne, Bool.not_eq_true', List.contains_eq_mem,
    decide_eq_false_iff_not]
  constructor
  · rintro ⟨⟨⟨⟨nonempty, dot⟩, dotdot⟩, slash⟩, nul⟩
    exact ⟨nonempty, slash, nul, dot, dotdot⟩
  · rintro ⟨nonempty, slash, nul, dot, dotdot⟩
    exact ⟨⟨⟨⟨nonempty, dot⟩, dotdot⟩, slash⟩, nul⟩

theorem Component.temp {c : Bytes} (h : Component c) (id : Nat) : Component (c ++ ascii ".tmp." ++ decimal id) := by
  have length : 6 ≤ (c ++ ascii ".tmp." ++ decimal id).length := by
    have first := List.length_pos_iff.mpr h.nonempty
    have suffix : (ascii ".tmp.").length = 5 := rfl
    simp only [List.length_append]
    omega
  have other : ∀ b, b ∉ c → b ∉ ascii ".tmp." → isDigit b = false → b ∉ c ++ ascii ".tmp." ++ decimal id := by
    intro b hc hs hd hb
    simp only [List.mem_append] at hb
    rcases hb with (hb | hb) | hb
    · exact hc hb
    · exact hs hb
    · rw [decimal_isDigit hb] at hd
      cases hd
  refine ⟨?_, other _ h.slash (by decide) rfl, other _ h.nul (by decide) rfl, ?_, ?_⟩
  · rintro empty
    simp [empty] at length
  · intro same
    rw [same] at length
    exact absurd length (by decide)
  · intro same
    rw [same] at length
    exact absurd length (by decide)

/-- Only confined paths have been passed to the file system, and only these will be. -/
structure Confines (cfg : Config) (s : Server) : Prop where
  log : ∀ e ∈ s.log, ∀ p ∈ e.paths, Confined cfg.fileDir p
  path : ∀ {id r}, s.heap id = some r → Confined cfg.fileDir r.path ∧ Confined cfg.fileDir (tempPath r)
  admitted : ∀ {fd op filename bytes leftover}, ⟨fd, .numbering op filename bytes leftover⟩ ∈ s.threads → Component filename

theorem Confines.start (cfg : Config) (os : Os) (threads : Nat) : Confines cfg (.start os threads) where
  log _ he := absurd he List.not_mem_nil
  path h := by cases h
  admitted h := absurd h List.not_mem_nil

theorem Component.confined {c : Bytes} (h : Component c) {cfg : Config} {id : Nat} {fd : Int} {op : Op} {bytes : UInt64}
    {leftover : Bytes} {r : Request} (hr : r = newRequest cfg id fd op c bytes leftover) :
    Confined cfg.fileDir r.path ∧ Confined cfg.fileDir (tempPath r) := by
  subst hr
  refine ⟨⟨c, h.names _⟩, c ++ ascii ".tmp." ++ decimal id, ?_⟩
  have names := (h.temp id).names cfg.fileDir
  simp only [tempPath, newRequest, List.append_assoc] at names ⊢
  exact names

theorem ruling_admitted {hdr : HeaderReadResult} {op : Op} {filename : Bytes} {bytes : UInt64} {leftover : Bytes}
    (h : ruling hdr = .admitted op filename bytes leftover) : Component filename := by
  unfold ruling at h
  split at h
  · simp only at h
    split at h
    · cases h
    · cases h
    · split at h
      · cases h
        exact (isFilenameSafe_iff _).mp ‹_›
      · cases h
    · split at h
      · split at h
        · cases h
        · cases h
          exact (isFilenameSafe_iff _).mp ‹_›
      · cases h
  · cases h

theorem answer_paths (fd : Int) (reply : Bytes) (os : Os) : ∀ e ∈ (answer fd reply os).log, e.paths = [] := by
  have sends : Within (fun _ : Os => True) (fun e => e.paths = []) (sendAll fd reply) := fun os _ =>
    ⟨trivial, fun e he => ((sendAll_uses (Set.mem_univ fd) reply os rfl).2 e he).1⟩
  have closes : Within (fun _ : Os => True) (fun e => e.paths = []) (close fd) := fun _ _ =>
    ⟨trivial, List.forall_mem_singleton.mpr rfl⟩
  exact ((Within.bind sends fun _ => closes) os trivial).2

namespace Confines
variable {cfg : Config} {s s' : Server}

theorem nowhere {l : List Event} (none : ∀ e ∈ l, e.paths = []) : ∀ e ∈ l, ∀ p ∈ e.paths, Confined cfg.fileDir p := by
  intro e he p hp
  rw [none e he] at hp
  cases hp

theorem moved (h : Confines cfg s) (l : List Event) (log : s'.log = s.log ++ l)
    (paths : ∀ e ∈ l, ∀ p ∈ e.paths, Confined cfg.fileDir p)
    (path : ∀ {id r}, s'.heap id = some r → Confined cfg.fileDir r.path ∧ Confined cfg.fileDir (tempPath r))
    (admitted : ∀ {fd op filename bytes leftover}, ⟨fd, .numbering op filename bytes leftover⟩ ∈ s'.threads →
      ⟨fd, .numbering op filename bytes leftover⟩ ∈ s.threads ∨ Component filename) : Confines cfg s' where
  log := by
    rw [log]
    exact List.forall_mem_append.mpr ⟨h.log, paths⟩
  path := path
  admitted ht := (admitted ht).elim h.admitted id

theorem quiet (h : Confines cfg s) (log : s'.log = s.log := by rfl)
    (path : ∀ {id r}, s'.heap id = some r → Confined cfg.fileDir r.path ∧ Confined cfg.fileDir (tempPath r))
    (admitted : ∀ {fd op filename bytes leftover}, ⟨fd, .numbering op filename bytes leftover⟩ ∈ s'.threads →
      ⟨fd, .numbering op filename bytes leftover⟩ ∈ s.threads ∨ Component filename) : Confines cfg s' :=
  h.moved [] (by rw [log, List.append_nil]) (List.forall_mem_nil _) path admitted

theorem updated (h : Confines cfg s) {id x : Nat} {r r₁ r' : Request} (hr : s.heap id = some r)
    (hr' : Function.update s.heap id (some r₁) x = some r') (path : r₁.path = r.path := by rfl)
    (temp : tempPath r₁ = tempPath r := by rfl) : Confined cfg.fileDir r'.path ∧ Confined cfg.fileDir (tempPath r') := by
  by_cases same : x = id
  · subst same
    rw [Function.update_self] at hr'
    cases hr'
    rw [path, temp]
    exact h.path hr
  · rw [Function.update_of_ne same] at hr'
    exact h.path hr'

theorem freed (h : Confines cfg s) {id x : Nat} {r' : Request} (hr' : Function.update s.heap id none x = some r') :
    Confined cfg.fileDir r'.path ∧ Confined cfg.fileDir (tempPath r') := by
  by_cases same : x = id
  · subst same
    rw [Function.update_self] at hr'
    cases hr'
  · rw [Function.update_of_ne same] at hr'
    exact h.path hr'

theorem slice (h : Confines cfg s) (tended : Tended s) (up : s.crashed = false) {w id : Nat} {r : Request} {o : Round}
    (hw : s.workers[w]? = some (.holding id)) (hr : s.heap id = some r)
    (ho : o = serveOrReport r.clientFd cfg.sp ⟨r, s.os⟩) : Confines cfg (s.afterSlice id o) := by
  have kept := (tended.fitting.slice tended.placement up hw hr ho).1
  obtain ⟨-, -, path, temp⟩ := fixed_fields kept.fixed
  refine h.moved o.log rfl (fun e he p hp => ?_) (fun hr' => h.updated hr hr' path temp) .inl
  rcases kept.paths e he p hp with same | same
  · exact same ▸ (h.path hr).1
  · exact same ▸ (h.path hr).2

theorem step (h : Confines cfg s) (tended : Tended s) (up : s.crashed = false) (step : Step cfg s s') :
    Confines cfg s' := by
  have opens : ∀ {id r} {o : Outcome Fault Os Event (Option (Int × UInt64))}, s.heap id = some r →
      o = openGet r.path s.os → ∀ e ∈ o.log, ∀ p ∈ e.paths, Confined cfg.fileDir p := by
    intro id r o hr ho e he p hp
    subst ho
    rw [(@openGet_conducts ∅ s.os r.path (by simp)).1 e he p hp]
    exact (h.path hr).1
  cases step with
  | @turnAway fd o ha ho => exact h.moved o.log rfl (nowhere (ho ▸ answer_paths fd _ _)) h.path .inl
  | spawn =>
    refine h.quiet rfl h.path fun ht => ?_
    rcases List.mem_append.mp ht with ht | ht
    · exact .inl ht
    · cases List.mem_singleton.mp ht
  | @read k fd hdr o hk ho hv =>
    refine h.moved o.log rfl (nowhere ?_) h.path fun {fd op filename bytes leftover} ht => ?_
    · subst ho
      exact fun e he => ((readHeaderLine_uses (Set.mem_univ fd) _ s.os rfl).2 e he).1
    · rcases List.mem_or_eq_of_mem_set ht with ht | ht
      · exact .inl ht
      · have phase : (ruling hdr).phase = .numbering op filename bytes leftover := (congrArg Thread.phase ht).symm
        cases hruling : ruling hdr with
        | admitted =>
          rw [hruling] at phase
          cases phase
          exact .inr (ruling_admitted hruling)
        | _ =>
          rw [hruling] at phase
          cases phase
  | depth hk => exact h.quiet rfl h.path fun ht => .inl (phase_set ht (by simp))
  | @answered k fd reply o hk ho =>
    exact h.moved o.log rfl (nowhere (ho ▸ answer_paths fd _ _)) h.path fun ht => .inl (phase_set ht (by simp))
  | @number k fd op filename bytes leftover r hk hr =>
    refine h.quiet rfl (fun {id r'} hr' => ?_) fun ht => .inl (phase_set ht (by simp))
    change Function.update s.heap s.nextId (some r) id = some r' at hr'
    by_cases new : id = s.nextId
    · rw [new, Function.update_self] at hr'
      cases hr'
      exact (h.admitted (List.mem_of_getElem? hk)).confined hr
    · rw [Function.update_of_ne new] at hr'
      exact h.path hr'
  | @stamp k fd id r hk hr =>
    refine h.quiet rfl (fun hr' => h.updated hr hr') fun ht => .inl (phase_set ht ?_)
    split <;> simp
  | @opened k fd id r n size o hk hr ho hv =>
    exact h.moved o.log rfl (opens hr ho) (fun hr' => h.updated hr hr') fun ht => .inl (phase_set ht (by simp))
  | @notFound k fd id r o hk hr ho hv =>
    exact h.moved o.log rfl (opens hr ho) h.freed fun ht => .inl (phase_set ht (by simp))
  | enqueue hk => exact h.quiet rfl h.path fun ht => .inl (phase_set ht (by simp))
  | leave hk => exact h.quiet rfl h.path fun ht => .inl (phase_set ht (by simp))
  | next hw hi hq hr => exact h.quiet rfl (fun hr' => h.updated hr hr') .inl
  | preempt hw hr ho =>
    have slice := h.slice tended up hw hr ho
    exact ⟨slice.log, slice.path, slice.admitted⟩
  | serve hw hr ho =>
    have slice := h.slice tended up hw hr ho
    exact ⟨slice.log, slice.path, slice.admitted⟩
  | sliceCrash hw hr ho =>
    have slice := h.slice tended up hw hr ho
    exact ⟨slice.log, slice.path, slice.admitted⟩
  | record hw hr heq => exact h.quiet rfl (fun hr' => h.updated hr hr' (heq ▸ rfl) (heq ▸ rfl)) .inl
  | @release w id r o hw hr ho =>
    refine h.moved o.log rfl (fun e he p hp => ?_) h.freed .inl
    subst ho
    rcases (@finalise_closes ⟨r, s.os⟩ (tended.fitting.fit hr).sound).2.2 e he p hp with same | same
    · exact same ▸ (h.path hr).1
    · exact same ▸ (h.path hr).2
  | @threadCrash k fd e o hk ho hv =>
    refine h.moved o.log rfl (nowhere ?_) h.path .inl
    subst ho
    exact fun e he => ((readHeaderLine_uses (Set.mem_univ fd) _ s.os rfl).2 e he).1
  | @openCrash k fd id r e o hk hr ho hv => exact h.moved o.log rfl (opens hr ho) h.path .inl
  | _ => exact h.quiet rfl h.path .inl

end Confines

/-- Whatever the clients send, and whatever the policy, the world and the order of the steps. -/
theorem run_confined {cfg : Config} {os : Os} {threads : Nat} {as : List Act} {s : Server}
    (h : run cfg as (.start os threads) = some s) :
    (∀ e ∈ s.log, ∀ p ∈ e.paths, Confined cfg.fileDir p) ∧ ∀ id r, s.heap id = some r →
      Confined cfg.fileDir r.path ∧ (r.tmpPath = [] ∨ Confined cfg.fileDir r.tmpPath) := by
  have kept : Tended s ∧ Confines cfg s :=
    run_keeps (P := fun s => Tended s ∧ Confines cfg s)
      (fun s s' inv up step => ⟨inv.1.step up step, inv.2.step inv.1 up step⟩)
      ⟨.start os threads, .start cfg os threads⟩ h
  refine ⟨kept.2.log, fun id r hr => ⟨(kept.2.path hr).1, ?_⟩⟩
  rcases (kept.1.fitting.fit hr).sound.temp with tmp | tmp
  · exact .inl tmp
  · exact .inr (tmp ▸ (kept.2.path hr).2)

theorem run_confined_single : ∃ s,
    run { fileDir := [100], sp := { policy := .drr, quantum := 9 } } servedAndStopped
        (.start (uploader [97, 98]) 1) = some s ∧
      s.log.flatMap Event.paths = [ascii "d/f.tmp.1", ascii "d/f.tmp.1", ascii "d/f"] ∧
      ∀ e ∈ s.log, ∀ p ∈ e.paths, Confined [100] p := by
  have facts : (run { fileDir := [100], sp := { policy := .drr, quantum := 9 } } servedAndStopped
      (.start (uploader [97, 98]) 1)).map (fun s => s.log.flatMap Event.paths) =
        some [ascii "d/f.tmp.1", ascii "d/f.tmp.1", ascii "d/f"] := by decide +kernel
  obtain ⟨s, hs, paths⟩ := Option.map_eq_some_iff.mp facts
  exact ⟨s, hs, paths, (run_confined hs).1⟩

end LinkScheduling
