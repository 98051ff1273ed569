import LinkScheduling.Effect

/-! The part of POSIX the server and the client call: named files with inodes and open
descriptors, stream sockets, a monotonic clock and allocation. What the environment decides
(how much a call moves, how long it takes, whether it fails) is read from a script of
replies; an exhausted script answers every call in full and at once. A descriptor number is
never used again, so it stands for one opening of a file or one accepted connection. -/

namespace LinkScheduling
open Effect

abbrev Bytes := List UInt8
abbrev Path := Bytes

def newline : UInt8 := 10
def space : UInt8 := 32

def ascii (s : String) : Bytes := s.toList.map fun c => c.toNat.toUInt8

/-- An open descriptor: its inode and the offset of the next write. -/
structure Desc where
  ino : Nat
  pos : Nat

/-- Names lead to inodes, and an open descriptor keeps its inode whatever happens to the
names. No inode has two names: the server makes no hard links. -/
structure Files where
  names : Path → Option Nat
  data : Nat → Bytes
  descs : Int → Option Desc
  nextIno : Nat
  nextFd : Nat
  names_lt : ∀ {p i}, names p = some i → i < nextIno
  names_inj : ∀ {p q i}, names p = some i → names q = some i → p = q
  descs_lt : ∀ {fd d}, descs fd = some d → d.ino < nextIno ∧ 0 ≤ fd ∧ fd < nextFd

namespace Files

def empty : Files where
  names _ := none
  data _ := []
  descs _ := none
  nextIno := 0
  nextFd := 0
  names_lt h := by cases h
  names_inj h := by cases h
  descs_lt h := by cases h

def single (p : Path) (c : Bytes) : Files where
  names q := if q = p then some 0 else none
  data _ := c
  descs _ := none
  nextIno := 1
  nextFd := 0
  names_lt := by
    intro q i h
    split at h
    · cases h
      exact Nat.one_pos
    · cases h
  names_inj := by
    intro q r i hq hr
    split at hq <;> split at hr <;> simp_all
  descs_lt h := by cases h

def content? (f : Files) (p : Path) : Option Bytes := (f.names p).map f.data

def contentOf (f : Files) (fd : Int) : Option Bytes := (f.descs fd).map fun d => f.data d.ino

/-- The inode that opening `p` for writing uses: the one it names, or a new one. -/
def target (f : Files) (p : Path) : Nat := (f.names p).getD f.nextIno

theorem target_le (f : Files) (p : Path) : f.target p ≤ f.nextIno := by
  unfold target
  cases h : f.names p with
  | none => exact Nat.le_refl _
  | some i => exact Nat.le_of_lt (f.names_lt h)

def openRead (f : Files) (i : Nat) (h : i < f.nextIno) : Files :=
  { f with
    descs := Function.update f.descs f.nextFd (some ⟨i, 0⟩)
    nextFd := f.nextFd + 1
    descs_lt := by
      intro fd d hd
      by_cases hfd : fd = f.nextFd
      · subst hfd
        simp only [Function.update_self, Option.some.injEq] at hd
        subst hd
        exact ⟨h, by omega⟩
      · rw [Function.update_of_ne hfd] at hd
        exact ⟨(f.descs_lt hd).1, by have := f.descs_lt hd; omega⟩ }

def openTrunc (f : Files) (p : Path) : Files where
  names := Function.update f.names p (some (f.target p))
  data := Function.update f.data (f.target p) []
  descs := Function.update f.descs f.nextFd (some ⟨f.target p, 0⟩)
  nextIno := max f.nextIno (f.target p + 1)
  nextFd := f.nextFd + 1
  names_lt := by
    intro q i h
    by_cases hq : q = p
    · subst hq
      simp only [Function.update_self, Option.some.injEq] at h
      omega
    · rw [Function.update_of_ne hq] at h
      exact Nat.lt_of_lt_of_le (f.names_lt h) (Nat.le_max_left _ _)
  names_inj := by
    intro q r i hq hr
    by_cases hqp : q = p <;> by_cases hrp : r = p
    · rw [hqp, hrp]
    · subst hqp
      rw [Function.update_self, Option.some.injEq] at hq
      rw [Function.update_of_ne hrp] at hr
      cases h : f.names q with
      | none =>
        have := f.names_lt hr
        simp only [target, h, Option.getD_none] at hq
        omega
      | some j =>
        simp only [target, h, Option.getD_some] at hq
        exact f.names_inj (hq ▸ h) hr
    · subst hrp
      rw [Function.update_self, Option.some.injEq] at hr
      rw [Function.update_of_ne hqp] at hq
      cases h : f.names r with
      | none =>
        have := f.names_lt hq
        simp only [target, h, Option.getD_none] at hr
        omega
      | some j =>
        simp only [target, h, Option.getD_some] at hr
        exact f.names_inj hq (hr ▸ h)
    · rw [Function.update_of_ne hqp] at hq
      rw [Function.update_of_ne hrp] at hr
      exact f.names_inj hq hr
  descs_lt := by
    intro fd d hd
    by_cases hfd : fd = f.nextFd
    · subst hfd
      simp only [Function.update_self, Option.some.injEq] at hd
      subst hd
      exact ⟨Nat.le_max_right _ _, by omega⟩
    · rw [Function.update_of_ne hfd] at hd
      exact ⟨Nat.lt_of_lt_of_le (f.descs_lt hd).1 (Nat.le_max_left _ _), by have := f.descs_lt hd; omega⟩

def close (f : Files) (fd : Int) : Files :=
  { f with
    descs := Function.update f.descs fd none
    descs_lt := by
      intro fd' d hd
      by_cases h : fd' = fd
      · subst h
        simp at hd
      · rw [Function.update_of_ne h] at hd
        exact f.descs_lt hd }

/-- Store `b` from offset `pos` on, past a gap of zero bytes where the file is shorter. -/
def overwrite (old : Bytes) (pos : Nat) (b : Bytes) : Bytes :=
  old.take pos ++ List.replicate (pos - old.length) 0 ++ b ++ old.drop (pos + b.length)

def write (f : Files) (fd : Int) (d : Desc) (hd : f.descs fd = some d) (b : Bytes) : Files :=
  { f with
    data := Function.update f.data d.ino (overwrite (f.data d.ino) d.pos b)
    descs := Function.update f.descs fd (some { d with pos := d.pos + b.length })
    descs_lt := by
      intro fd' d' hd'
      by_cases h : fd' = fd
      · subst h
        simp only [Function.update_self, Option.some.injEq] at hd'
        subst hd'
        exact ⟨(f.descs_lt hd).1, (f.descs_lt hd).2⟩
      · rw [Function.update_of_ne h] at hd'
        exact f.descs_lt hd' }

def rename (f : Files) (src dst : Path) (i : Nat) (hsrc : f.names src = some i) : Files :=
  { f with
    names := Function.update (Function.update f.names src none) dst (some i)
    names_lt := by
      intro p j h
      by_cases hp : p = dst
      · subst hp
        simp only [Function.update_self, Option.some.injEq] at h
        exact h ▸ f.names_lt hsrc
      · rw [Function.update_of_ne hp] at h
        by_cases hs : p = src
        · subst hs
          simp at h
        · rw [Function.update_of_ne hs] at h
          exact f.names_lt h
    names_inj := by
      have other : ∀ {p}, p ≠ dst →
          Function.update (Function.update f.names src none) dst (some i) p ≠ some i := by
        intro p hp h
        rw [Function.update_of_ne hp] at h
        by_cases hs : p = src
        · subst hs
          simp at h
        · rw [Function.update_of_ne hs] at h
          exact hs (f.names_inj h hsrc)
      intro p q j hp hq
      by_cases hpd : p = dst <;> by_cases hqd : q = dst
      · rw [hpd, hqd]
      · subst hpd
        rw [Function.update_self] at hp
        exact absurd (hp ▸ hq) (other hqd)
      · subst hqd
        rw [Function.update_self] at hq
        exact absurd (hq ▸ hp) (other hpd)
      · rw [Function.update_of_ne hpd] at hp
        rw [Function.update_of_ne hqd] at hq
        by_cases hps : p = src
        · subst hps
          simp at hp
        · by_cases hqs : q = src
          · subst hqs
            simp at hq
          · rw [Function.update_of_ne hps] at hp
            rw [Function.update_of_ne hqs] at hq
            exact f.names_inj hp hq }

def unlink (f : Files) (p : Path) : Files :=
  { f with
    names := Function.update f.names p none
    names_lt := by
      intro q i h
      by_cases hq : q = p
      · subst hq
        simp at h
      · rw [Function.update_of_ne hq] at h
        exact f.names_lt h
    names_inj := by
      intro q r i hq hr
      by_cases hqp : q = p
      · subst hqp
        simp at hq
      · by_cases hrp : r = p
        · subst hrp
          simp at hr
        · rw [Function.update_of_ne hqp] at hq
          rw [Function.update_of_ne hrp] at hr
          exact f.names_inj hq hr }

section Effects
variable (f : Files) (p src dst : Path) (fd : Int) (i : Nat) (b : Bytes)

@[simp] theorem openRead_names (h) : (f.openRead i h).names = f.names := rfl
@[simp] theorem openRead_data (h) : (f.openRead i h).data = f.data := rfl
@[simp] theorem openRead_descs (h) :
    (f.openRead i h).descs = Function.update f.descs f.nextFd (some ⟨i, 0⟩) := rfl
@[simp] theorem openTrunc_names :
    (f.openTrunc p).names = Function.update f.names p (some (f.target p)) := rfl
@[simp] theorem openTrunc_data :
    (f.openTrunc p).data = Function.update f.data (f.target p) [] := rfl
@[simp] theorem openTrunc_descs :
    (f.openTrunc p).descs = Function.update f.descs f.nextFd (some ⟨f.target p, 0⟩) := rfl
@[simp] theorem close_names : (f.close fd).names = f.names := rfl
@[simp] theorem close_data : (f.close fd).data = f.data := rfl
@[simp] theorem close_descs : (f.close fd).descs = Function.update f.descs fd none := rfl
@[simp] theorem close_nextFd : (f.close fd).nextFd = f.nextFd := rfl
@[simp] theorem close_nextIno : (f.close fd).nextIno = f.nextIno := rfl
@[simp] theorem write_names (d hd) : (f.write fd d hd b).names = f.names := rfl
@[simp] theorem write_data (d hd) : (f.write fd d hd b).data =
    Function.update f.data d.ino (overwrite (f.data d.ino) d.pos b) := rfl
@[simp] theorem write_descs (d hd) : (f.write fd d hd b).descs =
    Function.update f.descs fd (some { d with pos := d.pos + b.length }) := rfl
@[simp] theorem write_nextFd (d hd) : (f.write fd d hd b).nextFd = f.nextFd := rfl
@[simp] theorem write_nextIno (d hd) : (f.write fd d hd b).nextIno = f.nextIno := rfl
@[simp] theorem rename_names (h) : (f.rename src dst i h).names =
    Function.update (Function.update f.names src none) dst (some i) := rfl
@[simp] theorem rename_data (h) : (f.rename src dst i h).data = f.data := rfl
@[simp] theorem rename_descs (h) : (f.rename src dst i h).descs = f.descs := rfl
@[simp] theorem rename_nextFd (h) : (f.rename src dst i h).nextFd = f.nextFd := rfl
@[simp] theorem rename_nextIno (h) : (f.rename src dst i h).nextIno = f.nextIno := rfl
@[simp] theorem unlink_names : (f.unlink p).names = Function.update f.names p none := rfl
@[simp] theorem unlink_data : (f.unlink p).data = f.data := rfl
@[simp] theorem unlink_descs : (f.unlink p).descs = f.descs := rfl
@[simp] theorem unlink_nextFd : (f.unlink p).nextFd = f.nextFd := rfl
@[simp] theorem unlink_nextIno : (f.unlink p).nextIno = f.nextIno := rfl

theorem overwrite_end (old : Bytes) : overwrite old old.length b = old ++ b := by
  simp [overwrite]

theorem content?_openTrunc {q : Path} (h : q ≠ p) : (f.openTrunc p).content? q = f.content? q := by
  simp only [content?, openTrunc_names, openTrunc_data, Function.update_of_ne h]
  cases hq : f.names q with
  | none => rfl
  | some j =>
    have hj : j ≠ f.target p := by
      unfold target
      cases hp : f.names p with
      | none => exact Nat.ne_of_lt (f.names_lt hq)
      | some k => exact fun e => h (f.names_inj hq (e ▸ hp))
    simp [Function.update_of_ne hj]

end Effects

end Files

inductive Errno
  | intr
  | again
  | other
  deriving DecidableEq

/-- A call is granted in full, or at most some count, or it fails. -/
inductive Verdict
  | grant (most : Option Nat)
  | fail (e : Errno)
  deriving DecidableEq

structure Reply where
  verdict : Verdict
  elapsed : Nat

/-- How much of `limit` a granted call moves: a short count is positive wherever it can be. -/
def amount (limit : Nat) : Option Nat → Nat
  | none => limit
  | some n => min (max 1 n) limit

theorem amount_le (limit : Nat) (most : Option Nat) : amount limit most ≤ limit := by
  cases most with
  | none => exact Nat.le_refl _
  | some n => exact Nat.min_le_right _ _

theorem amount_pos {limit : Nat} (h : 0 < limit) (most : Option Nat) : 0 < amount limit most := by
  cases most with
  | none => exact h
  | some n => simp only [amount]; omega

/-- What a run leaves in its log: every call with what came of it, every buffer handed to
`send_all`, every deadline that was armed or found expired, and the A14 lines. A `badCall`
names a descriptor that is not open or an offset out of range, `missing` a name that leads
nowhere. -/
inductive Event
  | handed (fd : Int) (data : Bytes)
  | a14 (requestId : Nat) (filename : Bytes) (lineBytes quantum : UInt64)
  | pread (fd : Int) (pos want : Nat)
  | preadFailed (fd : Int)
  | sent (fd : Int) (data : Bytes)
  | sendFailed (fd : Int) (e : Errno)
  | received (fd : Int) (data : Bytes) (elapsed : Nat)
  | recvFailed (fd : Int) (e : Errno) (elapsed : Nat)
  | wrote (fd : Int) (data : Bytes)
  | writeFailed (fd : Int) (e : Errno)
  | opened (path : Path) (fd : Int)
  | openFailed (path : Path)
  | statFailed (fd : Int)
  | closed (fd : Int)
  | renamed (src dst : Path)
  | renameFailed (src dst : Path)
  | unlinked (path : Path)
  | unlinkFailed (path : Path)
  | badCall (fd : Int)
  | missing (path : Path)
  | armed (fd : Int) (sec usec : Nat)
  | expired (fd : Int)
  | allocFailed
  deriving DecidableEq

/-- The entries for a call that the environment made fail, or a deadline that it let expire.
An interrupted `send` or `write` is none of them: it is called again. -/
def Event.faulty : Event → Bool
  | .preadFailed _ | .recvFailed .. | .openFailed _ | .statFailed _ | .renameFailed ..
  | .unlinkFailed _ | .expired _ | .allocFailed => true
  | .sendFailed _ e | .writeFailed _ e => e != .intr
  | _ => false

instance : Faults Event := ⟨fun e => e.faulty = true⟩

@[simp] theorem faults_iff (e : Event) : Faults.faulty e ↔ e.faulty = true := Iff.rfl

instance (l : List Event) : Decidable (Clean l) :=
  inferInstanceAs (Decidable (∀ e ∈ l, ¬ e.faulty = true))

/-- An exception of the standard library, or a loop of the model out of fuel. -/
inductive Fault
  | thrown
  | spent
  deriving DecidableEq

/-- `peer fd h` is what the other end of a socket has written once it has been sent `h`. -/
structure Os where
  script : List Reply
  now : Nat
  files : Files
  peer : Int → Bytes → Bytes
  sent : Int → Bytes
  recvd : Int → Bytes
  rcvtimeo : Int → Nat × Nat

abbrev Sys (α : Type) := Prog Fault Os Event α

namespace Os

/-- A world with nothing sent or received yet, and a peer that stays silent. -/
def start (files : Files) (script : List Reply) : Os where
  script := script
  now := 0
  files := files
  peer _ _ := []
  sent _ := []
  recvd _ := []
  rcvtimeo _ := (0, 0)

def verdict (os : Os) : Verdict := (os.script.head?.map Reply.verdict).getD (.grant none)

def elapsed (os : Os) : Nat := (os.script.head?.map Reply.elapsed).getD 0

def answered (os : Os) : Os := { os with script := os.script.tail, now := os.now + os.elapsed }

def arrived (os : Os) (fd : Int) : Bytes := (os.peer fd (os.sent fd)).drop (os.recvd fd).length

@[simp] theorem answered_files (os : Os) : os.answered.files = os.files := rfl
@[simp] theorem answered_peer (os : Os) : os.answered.peer = os.peer := rfl
@[simp] theorem answered_sent (os : Os) : os.answered.sent = os.sent := rfl
@[simp] theorem answered_recvd (os : Os) : os.answered.recvd = os.recvd := rfl
@[simp] theorem answered_arrived (os : Os) (fd : Int) : os.answered.arrived fd = os.arrived fd := rfl
@[simp] theorem answered_script (os : Os) : os.answered.script = os.script.tail := rfl

theorem answered_length_le (os : Os) : os.answered.script.length ≤ os.script.length := by
  simp

theorem answered_length_lt {os : Os} {e : Errno} (h : os.verdict = .fail e) :
    os.answered.script.length < os.script.length := by
  cases hs : os.script with
  | nil => simp [verdict, hs] at h
  | cons r rest => simp [hs]

end Os

def call {α : Type} (f : Verdict → Os → Outcome Fault Os Event α) : Sys α := fun os =>
  f os.verdict os.answered

/-- One more than the largest offset that `off_t` holds. -/
def offLimit : Nat := 2 ^ 63

/-- The bytes read: none for an error as for the end of the file, since every caller tests
`n <= 0`. -/
def pread (fd : Int) (want pos : Nat) : Sys Bytes := call fun v os =>
  match v with
  | .fail _ => ⟨.ok [], os, [.preadFailed fd]⟩
  | .grant most =>
    match os.files.contentOf fd with
    | none => ⟨.ok [], os, [.badCall fd]⟩
    | some c =>
      if pos < offLimit then
        let rest := (c.drop pos).take want
        ⟨.ok (rest.take (amount rest.length most)), os, [.pread fd pos want]⟩
      else ⟨.ok [], os, [.badCall fd]⟩

def send (fd : Int) (data : Bytes) : Sys (Except Errno Nat) := call fun v os =>
  match v with
  | .fail e => ⟨.ok (.error e), os, [.sendFailed fd e]⟩
  | .grant most =>
    let part := data.take (amount data.length most)
    ⟨.ok (.ok part.length), { os with sent := Function.update os.sent fd (os.sent fd ++ part) },
      [.sent fd part]⟩

/-- No byte received means that the other end has closed. -/
def recv (fd : Int) (n : Nat) : Sys (Except Errno Bytes) := fun start =>
  call (fun v os =>
    match v with
    | .fail e => ⟨.ok (.error e), os, [.recvFailed fd e start.elapsed]⟩
    | .grant most =>
      let rest := (os.arrived fd).take n
      let part := rest.take (amount rest.length most)
      ⟨.ok (.ok part), { os with recvd := Function.update os.recvd fd (os.recvd fd ++ part) },
        [.received fd part start.elapsed]⟩) start

def write (fd : Int) (data : Bytes) : Sys (Except Errno Nat) := call fun v os =>
  match v with
  | .fail e => ⟨.ok (.error e), os, [.writeFailed fd e]⟩
  | .grant most =>
    match h : os.files.descs fd with
    | none => ⟨.ok (.error .other), os, [.badCall fd]⟩
    | some d =>
      let part := data.take (amount data.length most)
      ⟨.ok (.ok part.length), { os with files := os.files.write fd d h part }, [.wrote fd part]⟩

def openTrunc (p : Path) : Sys (Option Int) := call fun v os =>
  match v with
  | .fail _ => ⟨.ok none, os, [.openFailed p]⟩
  | .grant _ => ⟨.ok (some os.files.nextFd), { os with files := os.files.openTrunc p },
      [.opened p os.files.nextFd]⟩

def openRead (p : Path) : Sys (Option Int) := call fun v os =>
  match v with
  | .fail _ => ⟨.ok none, os, [.openFailed p]⟩
  | .grant _ =>
    match h : os.files.names p with
    | none => ⟨.ok none, os, [.missing p]⟩
    | some i => ⟨.ok (some os.files.nextFd),
        { os with files := os.files.openRead i (os.files.names_lt h) },
        [.opened p os.files.nextFd]⟩

/-- The size that `fstat` gives, unless it fails or the file is not a regular one. -/
def fstat (fd : Int) : Sys (Option Nat) := call fun v os =>
  match v with
  | .fail _ => ⟨.ok none, os, [.statFailed fd]⟩
  | .grant _ =>
    match os.files.contentOf fd with
    | none => ⟨.ok none, os, [.badCall fd]⟩
    | some c => ⟨.ok (some c.length), os, []⟩

def close (fd : Int) : Sys Unit := fun os =>
  ⟨.ok (), { os with files := os.files.close fd }, [.closed fd]⟩

def rename (src dst : Path) : Sys Bool := call fun v os =>
  match v with
  | .fail _ => ⟨.ok false, os, [.renameFailed src dst]⟩
  | .grant _ =>
    match h : os.files.names src with
    | none => ⟨.ok false, os, [.missing src]⟩
    | some i => ⟨.ok true, { os with files := os.files.rename src dst i h }, [.renamed src dst]⟩

def unlink (p : Path) : Sys Bool := call fun v os =>
  match v with
  | .fail _ => ⟨.ok false, os, [.unlinkFailed p]⟩
  | .grant _ =>
    match os.files.names p with
    | none => ⟨.ok false, os, [.missing p]⟩
    | some _ => ⟨.ok true, { os with files := os.files.unlink p }, [.unlinked p]⟩

/-- An allocation, which may throw. -/
def alloc : Sys Unit := call fun v os =>
  match v with
  | .fail _ => ⟨.error .thrown, os, [.allocFailed]⟩
  | .grant _ => ⟨.ok (), os, []⟩

end LinkScheduling
