import LinkScheduling.Flags

/-! The configuration file, after `config.cpp`. A document is what the JSON parser makes of the file:
an integer is signed or unsigned with 64 bits, and every other number a float. Every failed check
prints a line that names the field, and ends the process. -/

namespace LinkScheduling

/-- A parsed document. Among the members of an object no key occurs twice. -/
inductive Json
  | null
  | boolean (b : Bool)
  | integer (n : Int64)
  | unsigned (n : UInt64)
  | float (bits : UInt64)
  | string (s : Bytes)
  | array (elements : List Json)
  | object (members : List (Bytes × Json))

namespace Json

def find? (key : Bytes) : Json → Option Json
  | .object members => (members.find? fun m => m.1 = key).map Prod.snd
  | _ => none

def isObject : Json → Bool
  | .object _ => true
  | _ => false

def number? : Json → Option Int
  | .integer n => some n.toInt
  | .unsigned n => some n.toNat
  | _ => none

/-- `get<long long>` of an integer: an unsigned one is converted. -/
def longLong? : Json → Option Int
  | .integer n => some n.toInt
  | .unsigned n => some n.toBitVec.toInt
  | _ => none

end Json

structure ServerConfig where
  ip : Bytes
  port : UInt16
  serverThreads : Int
  clientThreads : Int

structure BackendConfig where
  ip : Bytes
  port : UInt16

structure LoadBalancerConfig where
  ip : Bytes := []
  port : UInt16 := 0
  healthIntervalMs : Int := 0
  backends : List BackendConfig := []

structure ConfigFile where
  server : ServerConfig
  loadBalancer : LoadBalancerConfig := {}
  hasLoadBalancer : Bool := false

def failMissing (field : Bytes) : Bytes := ascii "error: missing required field " ++ inQuotes field

def failType (field : Bytes) : Bytes := ascii "error: wrong type for field " ++ inQuotes field

def failCustom (field detail : Bytes) : Bytes := ascii "error: " ++ detail ++ ascii " for field " ++ inQuotes field

def failJson (detail : Bytes) : Bytes := ascii "error: malformed JSON: " ++ detail

def requireObj (parent : Json) (key path : Bytes) : Except Bytes Json :=
  match parent.find? key with
  | none => .error (failMissing path)
  | some v => if v.isObject then .ok v else .error (failType path)

def requireString (obj : Json) (key path : Bytes) : Except Bytes Bytes :=
  match obj.find? key with
  | none => .error (failMissing path)
  | some (.string s) => .ok s
  | some _ => .error (failType path)

def requireNumber (obj : Json) (key path : Bytes) (lo hi : Int) (detail : Bytes) : Except Bytes Int :=
  match obj.find? key with
  | none => .error (failMissing path)
  | some v =>
    match v.longLong? with
    | none => .error (failType path)
    | some n => if n < lo ∨ hi < n then .error (failCustom path detail) else .ok n

def toUInt16 (n : Int) : UInt16 := ⟨BitVec.ofInt 16 n⟩

def requirePort (obj : Json) (key path : Bytes) : Except Bytes UInt16 :=
  (requireNumber obj key path 1 65535 (ascii "port must be between 1 and 65535")).map toUInt16

def requireInt (obj : Json) (key path : Bytes) (lo hi : Nat) : Except Bytes Int :=
  (requireNumber obj key path lo hi (ascii "value must be between " ++ decimal lo ++ ascii " and " ++ decimal hi)).map
    toInt32

def kMaxThreads : Nat := 10000
def kMaxIntervalMs : Nat := 3600000

def backendPath (i : Nat) : Bytes := ascii "load_balancer.backends[" ++ decimal i ++ ascii "]"

def readBackends : Nat → List Json → Except Bytes (List BackendConfig)
  | _, [] => pure []
  | i, b :: rest => do
    let p := backendPath i
    if b.isObject then
      let ip ← requireString b (ascii "ip") (p ++ ascii ".ip")
      let port ← requirePort b (ascii "port") (p ++ ascii ".port")
      let backends ← readBackends (i + 1) rest
      pure (⟨ip, port⟩ :: backends)
    else .error (failType p)

def requireBackends (lb : Json) : Except Bytes (List Json) :=
  match lb.find? (ascii "backends") with
  | none => .error (failMissing (ascii "load_balancer.backends"))
  | some (.array backends) =>
    if backends.length ≠ 4 then .error (failCustom (ascii "load_balancer.backends") (ascii "must have exactly 4 entries"))
    else .ok backends
  | some _ => .error (failType (ascii "load_balancer.backends"))

def readServer (root : Json) : Except Bytes ServerConfig := do
  let server ← requireObj root (ascii "server") (ascii "server")
  let ip ← requireString server (ascii "ip") (ascii "server.ip")
  let port ← requirePort server (ascii "port") (ascii "server.port")
  let serverThreads ← requireInt server (ascii "server_threads") (ascii "server.server_threads") 1 kMaxThreads
  let clientThreads ← requireInt server (ascii "client_threads") (ascii "server.client_threads") 1 kMaxThreads
  pure ⟨ip, port, serverThreads, clientThreads⟩

def readLoadBalancer (root : Json) : Except Bytes LoadBalancerConfig := do
  let lb ← requireObj root (ascii "load_balancer") (ascii "load_balancer")
  let ip ← requireString lb (ascii "ip") (ascii "load_balancer.ip")
  let port ← requirePort lb (ascii "port") (ascii "load_balancer.port")
  let healthIntervalMs ←
    requireInt lb (ascii "health_interval_ms") (ascii "load_balancer.health_interval_ms") 1 kMaxIntervalMs
  let backends ← requireBackends lb
  let backends ← readBackends 0 backends
  pure ⟨ip, port, healthIntervalMs, backends⟩

def loadDocument (root : Json) (requireLoadBalancer : Bool) : Except Bytes ConfigFile := do
  if root.isObject then
    let server ← readServer root
    if requireLoadBalancer then
      let lb ← readLoadBalancer root
      pure { server := server, loadBalancer := lb, hasLoadBalancer := true }
    else pure { server := server }
  else .error (failType (ascii "<root>"))

/-- `content` is what the file holds, unless it cannot be opened. -/
def loadConfig (path : Bytes) (content : Option Bytes) (parse : Bytes → Except Bytes Json) (requireLoadBalancer : Bool) :
    Except Bytes ConfigFile :=
  match content with
  | none => .error (ascii "error: cannot open config file " ++ inQuotes path)
  | some text =>
    match parse text with
    | .error what => .error (failJson what)
    | .ok root => loadDocument root requireLoadBalancer

def mainConfig (path : Bytes) (content : Option Bytes) (parse : Bytes → Except Bytes Json) : Except Bytes ConfigFile :=
  loadConfig path content parse false

inductive Kind
  | text
  | number (lo hi : Int)

def Kind.Admits : Kind → Json → Prop
  | .text, v => ∃ s, v = .string s
  | .number lo hi, v => ∃ n, v.number? = some n ∧ lo ≤ n ∧ n ≤ hi

def Has (obj : Json) (key : Bytes) (kind : Kind) : Prop := ∃ v, obj.find? key = some v ∧ kind.Admits v

def serverFields : List (Bytes × Kind) :=
  [(ascii "ip", .text), (ascii "port", .number 1 65535), (ascii "server_threads", .number 1 10000),
    (ascii "client_threads", .number 1 10000)]

def loadBalancerFields : List (Bytes × Kind) :=
  [(ascii "ip", .text), (ascii "port", .number 1 65535), (ascii "health_interval_ms", .number 1 3600000)]

def backendFields : List (Bytes × Kind) := [(ascii "ip", .text), (ascii "port", .number 1 65535)]

structure ObjectMeets (fields : List (Bytes × Kind)) (obj : Json) : Prop where
  object : obj.isObject = true
  fields : ∀ f ∈ fields, Has obj f.1 f.2

structure BalancerMeets (lb : Json) : Prop where
  fields : ObjectMeets loadBalancerFields lb
  backends : ∃ l, lb.find? (ascii "backends") = some (.array l) ∧ l.length = 4 ∧ ∀ b ∈ l, ObjectMeets backendFields b

def ServerMeets (root : Json) : Prop := ∃ server, root.find? (ascii "server") = some server ∧ ObjectMeets serverFields server

structure WellFormed (root : Json) : Prop where
  object : root.isObject = true
  server : ServerMeets root
  loadBalancer : ∀ lb, root.find? (ascii "load_balancer") = some lb → BalancerMeets lb

inductive FieldOffends (fields : List (Bytes × Kind)) (path : Bytes) (obj : Json) : Bytes → Prop
  | type : obj.isObject = false → FieldOffends fields path obj path
  | field {key : Bytes} {kind : Kind} : (key, kind) ∈ fields → ¬ Has obj key kind →
      FieldOffends fields path obj (path ++ ascii "." ++ key)

inductive Offends (root : Json) (requireLoadBalancer : Bool) : Bytes → Prop
  | root : root.isObject = false → Offends root requireLoadBalancer (ascii "<root>")
  | server : root.find? (ascii "server") = none → Offends root requireLoadBalancer (ascii "server")
  | serverField {server : Json} {field : Bytes} : root.find? (ascii "server") = some server →
      FieldOffends serverFields (ascii "server") server field → Offends root requireLoadBalancer field
  | loadBalancer : requireLoadBalancer = true → root.find? (ascii "load_balancer") = none →
      Offends root requireLoadBalancer (ascii "load_balancer")
  | loadBalancerField {lb : Json} {field : Bytes} : root.find? (ascii "load_balancer") = some lb →
      FieldOffends loadBalancerFields (ascii "load_balancer") lb field → Offends root requireLoadBalancer field
  | backends {lb : Json} : root.find? (ascii "load_balancer") = some lb →
      (¬ ∃ l, lb.find? (ascii "backends") = some (.array l) ∧ l.length = 4) →
      Offends root requireLoadBalancer (ascii "load_balancer.backends")
  | backend {lb b : Json} {l : List Json} {i : Nat} {field : Bytes} : root.find? (ascii "load_balancer") = some lb →
      lb.find? (ascii "backends") = some (.array l) → l[i]? = some b → FieldOffends backendFields (backendPath i) b field →
      Offends root requireLoadBalancer field

def StoresNumber (obj : Json) (key : Bytes) (n : Int) : Prop := ∃ v, obj.find? key = some v ∧ v.number? = some n

structure ServerStored (server : Json) (cfg : ServerConfig) : Prop where
  ip : server.find? (ascii "ip") = some (.string cfg.ip)
  port : StoresNumber server (ascii "port") cfg.port.toNat
  serverThreads : StoresNumber server (ascii "server_threads") cfg.serverThreads
  clientThreads : StoresNumber server (ascii "client_threads") cfg.clientThreads

structure BackendStored (b : Json) (cfg : BackendConfig) : Prop where
  ip : b.find? (ascii "ip") = some (.string cfg.ip)
  port : StoresNumber b (ascii "port") cfg.port.toNat

structure BalancerStored (lb : Json) (cfg : LoadBalancerConfig) : Prop where
  ip : lb.find? (ascii "ip") = some (.string cfg.ip)
  port : StoresNumber lb (ascii "port") cfg.port.toNat
  healthIntervalMs : StoresNumber lb (ascii "health_interval_ms") cfg.healthIntervalMs
  backends : ∃ l, lb.find? (ascii "backends") = some (.array l) ∧ List.Forall₂ BackendStored l cfg.backends

def Checks {ε α : Type} (x : Except ε α) (P : α → Prop) (F : ε → Prop) : Prop :=
  match x with
  | .ok a => P a
  | .error e => F e

section Checks
variable {ε α β : Type} {x : Except ε α} {P : α → Prop} {F : ε → Prop}

theorem Checks.bind {f : α → Except ε β} {Q : β → Prop} (h : Checks x P F) (next : ∀ a, P a → Checks (f a) Q F) :
    Checks (x >>= f) Q F := by
  cases x with
  | ok a => exact next a h
  | error e => exact h

theorem Checks.mono {P' : α → Prop} {F' : ε → Prop} (h : Checks x P F) (ok : ∀ a, P a → P' a) (error : ∀ e, F e → F' e) :
    Checks x P' F' := by
  cases x with
  | ok a => exact ok a h
  | error e => exact error e h

theorem Checks.map {f : α → β} {Q : β → Prop} (h : Checks x P F) (ok : ∀ a, P a → Q (f a)) : Checks (x.map f) Q F := by
  cases x with
  | ok a => exact ok a h
  | error e => exact h

end Checks

def NamesField (msg field : Bytes) : Prop := inQuotes field <:+: msg

theorem failMissing_names (field : Bytes) : NamesField (failMissing field) field := (List.suffix_append _ _).isInfix

theorem failType_names (field : Bytes) : NamesField (failType field) field := (List.suffix_append _ _).isInfix

theorem failCustom_names (field detail : Bytes) : NamesField (failCustom field detail) field :=
  (List.suffix_append _ _).isInfix

section Require
variable (obj : Json) (key path : Bytes)

theorem requireObj_checks : Checks (requireObj obj key path)
    (fun v => obj.find? key = some v ∧ v.isObject = true)
    (fun msg => (∀ v, obj.find? key = some v → v.isObject = false) ∧ NamesField msg path) := by
  unfold requireObj
  cases found : obj.find? key with
  | none => exact ⟨by simp, failMissing_names path⟩
  | some v =>
    simp only
    split
    · rename_i object
      exact ⟨rfl, object⟩
    · rename_i other
      refine ⟨?_, failType_names path⟩
      rintro w ⟨⟩
      exact Bool.eq_false_iff.mpr other

theorem requireString_checks : Checks (requireString obj key path) (fun s => obj.find? key = some (.string s))
    (fun msg => ¬ Has obj key .text ∧ NamesField msg path) := by
  unfold requireString
  split
  · rename_i found
    refine ⟨?_, failMissing_names path⟩
    rintro ⟨v, hv, -⟩
    cases found.symm.trans hv
  · rename_i s found
    exact found
  · rename_i w other found
    refine ⟨?_, failType_names path⟩
    rintro ⟨v, hv, s, rfl⟩
    cases found.symm.trans hv
    exact other s rfl

theorem requireNumber_checks {lo hi : Int} (nonneg : 0 ≤ lo) (small : hi < 2 ^ 63) (detail : Bytes) :
    Checks (requireNumber obj key path lo hi detail) (fun n => StoresNumber obj key n ∧ lo ≤ n ∧ n ≤ hi)
      (fun msg => ¬ Has obj key (.number lo hi) ∧ NamesField msg path) := by
  unfold requireNumber
  cases found : obj.find? key with
  | none =>
    refine ⟨?_, failMissing_names path⟩
    rintro ⟨v, hv, -⟩
    cases found.symm.trans hv
  | some w =>
    have same : ∀ n, w.longLong? = some n → ∃ m, w.number? = some m ∧ (m = n ∨ n < lo ∧ hi < m) := by
      intro n hn
      cases w with
      | integer k => exact ⟨n, hn, .inl rfl⟩
      | unsigned k =>
        refine ⟨_, rfl, ?_⟩
        have value := Option.some.inj hn
        have top := k.toNat_lt
        rw [BitVec.toInt_eq_toNat_cond, UInt64.toNat_toBitVec] at value
        split at value
        · exact .inl value
        · exact .inr ⟨by omega, by omega⟩
      | _ => cases hn
    simp only
    cases number : w.longLong? with
    | none =>
      refine ⟨?_, failType_names path⟩
      rintro ⟨v, hv, m, hm, -⟩
      cases found.symm.trans hv
      cases w with
      | integer k => cases number
      | unsigned k => cases number
      | _ => cases hm
    | some n =>
      obtain ⟨m, hm, cases_⟩ := same n number
      simp only
      split
      · rename_i out
        refine ⟨?_, failCustom_names path detail⟩
        rintro ⟨v, hv, k, hk, lower, upper⟩
        cases found.symm.trans hv
        cases hm.symm.trans hk
        omega
      · rename_i within
        have exact_ : m = n := by omega
        exact ⟨⟨w, found, exact_ ▸ hm⟩, by omega, by omega⟩

theorem requirePort_checks : Checks (requirePort obj key path)
    (fun port => StoresNumber obj key port.toNat ∧ Has obj key (.number 1 65535))
    (fun msg => ¬ Has obj key (.number 1 65535) ∧ NamesField msg path) := by
  refine (requireNumber_checks obj key path (by decide) (by decide) _).map fun n ⟨⟨v, found, number⟩, lower, upper⟩ => ?_
  have same : ((toUInt16 n).toNat : Int) = n := by
    change ((BitVec.ofInt 16 n).toNat : Int) = n
    rw [BitVec.toNat_ofInt]
    omega
  exact ⟨⟨v, found, number.trans (congrArg some same.symm)⟩, v, found, n, number, lower, upper⟩

theorem requireInt_checks {lo hi : Nat} (small : hi < 2 ^ 31) : Checks (requireInt obj key path lo hi)
    (fun n => StoresNumber obj key n ∧ Has obj key (.number lo hi))
    (fun msg => ¬ Has obj key (.number lo hi) ∧ NamesField msg path) := by
  refine (requireNumber_checks obj key path (by omega) (by omega) _).map fun n ⟨⟨v, found, number⟩, lower, upper⟩ => ?_
  have same : toInt32 n = n := by
    rw [toInt32_eq, Int.bmod_def]
    split <;> omega
  exact ⟨⟨v, found, number.trans (congrArg some same.symm)⟩, v, found, n, number, lower, upper⟩

end Require

section Load
variable {root obj : Json} {requireLoadBalancer : Bool} {fields : List (Bytes × Kind)} {path field : Bytes}

theorem FieldOffends.not_meets (h : FieldOffends fields path obj field) : ¬ ObjectMeets fields obj := by
  intro meets
  cases h with
  | type other => exact absurd meets.object (by simp [other])
  | field mem missing => exact missing (meets.fields _ mem)

theorem server_fails {server : Json} (found : root.find? (ascii "server") = some server) {key : Bytes} {kind : Kind}
    {msg : Bytes} (mem : (key, kind) ∈ serverFields) (failed : ¬ Has server key kind)
    (names : NamesField msg (ascii "server" ++ ascii "." ++ key)) :
    (∃ field, Offends root requireLoadBalancer field ∧ NamesField msg field) ∧ ¬ ServerMeets root := by
  have offends : FieldOffends serverFields (ascii "server") server (ascii "server" ++ ascii "." ++ key) := .field mem failed
  refine ⟨⟨_, .serverField found offends, names⟩, ?_⟩
  rintro ⟨v, hv, meets⟩
  cases found.symm.trans hv
  exact offends.not_meets meets

theorem readServer_checks (root : Json) (requireLoadBalancer : Bool) : Checks (readServer root)
    (fun cfg => ∃ server, root.find? (ascii "server") = some server ∧ ObjectMeets serverFields server ∧ ServerStored server cfg)
    (fun msg => (∃ field, Offends root requireLoadBalancer field ∧ NamesField msg field) ∧ ¬ ServerMeets root) := by
  unfold readServer
  refine Checks.bind ((requireObj_checks _ _ _).mono (fun _ h => h) ?_) fun server ⟨found, object⟩ => ?_
  · rintro msg ⟨none, names⟩
    cases found : root.find? (ascii "server") with
    | none =>
      refine ⟨⟨_, .server found, names⟩, ?_⟩
      rintro ⟨v, hv, -⟩
      cases found.symm.trans hv
    | some v =>
      have offends : FieldOffends serverFields (ascii "server") v (ascii "server") := .type (none v found)
      refine ⟨⟨_, .serverField found offends, names⟩, ?_⟩
      rintro ⟨w, hw, meets⟩
      cases found.symm.trans hw
      exact offends.not_meets meets
  have fails : ∀ {key kind msg}, (key, kind) ∈ serverFields → ¬ Has server key kind ∧
      NamesField msg (ascii "server" ++ ascii "." ++ key) →
      (∃ field, Offends root requireLoadBalancer field ∧ NamesField msg field) ∧ ¬ ServerMeets root :=
    fun mem h => server_fails found mem h.1 h.2
  refine Checks.bind ((requireString_checks _ _ _).mono (fun _ h => h) fun _ h => fails (by simp [serverFields]) h)
    fun ip hip => ?_
  refine Checks.bind ((requirePort_checks _ _ _).mono (fun _ h => h) fun _ h => fails (by simp [serverFields]) h)
    fun port ⟨hport, hasPort⟩ => ?_
  refine Checks.bind ((requireInt_checks _ _ _ (by decide)).mono (fun _ h => h) fun _ h => fails (by simp [serverFields, kMaxThreads]) h)
    fun serverThreads ⟨hserver, hasServer⟩ => ?_
  refine Checks.bind ((requireInt_checks _ _ _ (by decide)).mono (fun _ h => h) fun _ h => fails (by simp [serverFields, kMaxThreads]) h)
    fun clientThreads ⟨hclient, hasClient⟩ => ?_
  refine ⟨server, found, ⟨object, ?_⟩, hip, hport, hserver, hclient⟩
  simp only [serverFields, List.forall_mem_cons]
  exact ⟨⟨_, hip, ip, rfl⟩, hasPort, hasServer, hasClient, by simp⟩

theorem balancer_fails {lb : Json} (found : root.find? (ascii "load_balancer") = some lb) {key : Bytes} {kind : Kind}
    {msg : Bytes} (mem : (key, kind) ∈ loadBalancerFields) (failed : ¬ Has lb key kind)
    (names : NamesField msg (ascii "load_balancer" ++ ascii "." ++ key)) :
    (∃ field, Offends root requireLoadBalancer field ∧ NamesField msg field) ∧ ¬ BalancerMeets lb := by
  have offends : FieldOffends loadBalancerFields (ascii "load_balancer") lb (ascii "load_balancer" ++ ascii "." ++ key) :=
    .field mem failed
  exact ⟨⟨_, .loadBalancerField found offends, names⟩, fun meets => offends.not_meets meets.fields⟩

theorem readBackends_checks {lb : Json} {l : List Json} (found : root.find? (ascii "load_balancer") = some lb)
    (backends : lb.find? (ascii "backends") = some (.array l)) {rest : List Json} {i : Nat} (drop : l.drop i = rest) :
    Checks (readBackends i rest) (fun cfgs => (∀ b ∈ rest, ObjectMeets backendFields b) ∧ List.Forall₂ BackendStored rest cfgs)
      (fun msg => (∃ field, Offends root requireLoadBalancer field ∧ NamesField msg field) ∧
        ¬ ∀ b ∈ l, ObjectMeets backendFields b) := by
  induction rest generalizing i with
  | nil => exact ⟨by simp, .nil⟩
  | cons b rest ih =>
    have at_ : l[i]? = some b := by
      rw [← List.head?_drop, drop, List.head?_cons]
    have later : l.drop (i + 1) = rest := by
      rw [← List.tail_drop, drop, List.tail_cons]
    have fails : ∀ {field msg}, FieldOffends backendFields (backendPath i) b field → NamesField msg field →
        (∃ field, Offends root requireLoadBalancer field ∧ NamesField msg field) ∧
          ¬ ∀ b ∈ l, ObjectMeets backendFields b :=
      fun offends names => ⟨⟨_, .backend found backends at_ offends, names⟩,
        fun meets => offends.not_meets (meets b (List.mem_of_getElem? at_))⟩
    unfold readBackends
    simp only
    split
    · rename_i object
      refine Checks.bind ((requireString_checks _ _ _).mono (fun _ h => h) fun _ h =>
        fails (.field (by simp [backendFields]) h.1) (by rw [List.append_assoc]; exact h.2)) fun ip hip => ?_
      refine Checks.bind ((requirePort_checks _ _ _).mono (fun _ h => h) fun _ h =>
        fails (.field (by simp [backendFields]) h.1) (by rw [List.append_assoc]; exact h.2)) fun port ⟨hport, hasPort⟩ => ?_
      refine Checks.bind (ih later) fun cfgs ⟨meets, stored⟩ => ?_
      have here : ObjectMeets backendFields b := by
        refine ⟨object, ?_⟩
        simp only [backendFields, List.forall_mem_cons]
        exact ⟨⟨_, hip, ip, rfl⟩, hasPort, by simp⟩
      exact ⟨List.forall_mem_cons.mpr ⟨here, meets⟩, .cons ⟨hip, hport⟩ stored⟩
    · rename_i other
      exact fails (.type (Bool.eq_false_iff.mpr other)) (failType_names _)

theorem requireBackends_checks {lb : Json} (found : root.find? (ascii "load_balancer") = some lb) :
    Checks (requireBackends lb) (fun l => lb.find? (ascii "backends") = some (.array l) ∧ l.length = 4)
      (fun msg => (∃ field, Offends root requireLoadBalancer field ∧ NamesField msg field) ∧ ¬ BalancerMeets lb) := by
  have fails : ∀ {msg}, (¬ ∃ l, lb.find? (ascii "backends") = some (.array l) ∧ l.length = 4) →
      NamesField msg (ascii "load_balancer.backends") →
      (∃ field, Offends root requireLoadBalancer field ∧ NamesField msg field) ∧ ¬ BalancerMeets lb := by
    intro msg none names
    refine ⟨⟨_, .backends found none, names⟩, fun meets => ?_⟩
    obtain ⟨l, hl, four, -⟩ := meets.backends
    exact none ⟨l, hl, four⟩
  unfold requireBackends
  split
  · rename_i missing
    exact fails (by simp [missing]) (failMissing_names _)
  · rename_i l array
    split
    · rename_i other
      exact fails (by simp [array, other]) (failCustom_names _ _)
    · rename_i four
      exact ⟨array, not_not.mp four⟩
  · rename_i v other array
    refine fails ?_ (failType_names _)
    rintro ⟨l, hl, -⟩
    cases array.symm.trans hl
    exact other l rfl

theorem readLoadBalancer_checks (root : Json) : Checks (readLoadBalancer root)
    (fun cfg => ∃ lb, root.find? (ascii "load_balancer") = some lb ∧ BalancerMeets lb ∧ BalancerStored lb cfg)
    (fun msg => (∃ field, Offends root true field ∧ NamesField msg field) ∧
      ¬ ∃ lb, root.find? (ascii "load_balancer") = some lb ∧ BalancerMeets lb) := by
  unfold readLoadBalancer
  refine Checks.bind ((requireObj_checks _ _ _).mono (fun _ h => h) ?_) fun lb ⟨found, object⟩ => ?_
  · rintro msg ⟨none, names⟩
    cases found : root.find? (ascii "load_balancer") with
    | none =>
      refine ⟨⟨_, .loadBalancer rfl found, names⟩, ?_⟩
      rintro ⟨v, hv, -⟩
      cases hv
    | some v =>
      have offends : FieldOffends loadBalancerFields (ascii "load_balancer") v (ascii "load_balancer") := .type (none v found)
      refine ⟨⟨_, .loadBalancerField found offends, names⟩, ?_⟩
      rintro ⟨w, hw, meets⟩
      cases hw
      exact offends.not_meets meets.fields
  have unmet : ∀ {msg}, (∃ field, Offends root true field ∧ NamesField msg field) ∧ ¬ BalancerMeets lb →
      (∃ field, Offends root true field ∧ NamesField msg field) ∧
        ¬ ∃ lb, root.find? (ascii "load_balancer") = some lb ∧ BalancerMeets lb := by
    rintro msg ⟨names, not⟩
    refine ⟨names, ?_⟩
    rintro ⟨w, hw, meets⟩
    cases found.symm.trans hw
    exact not meets
  have fails : ∀ {key kind msg}, (key, kind) ∈ loadBalancerFields → ¬ Has lb key kind ∧
      NamesField msg (ascii "load_balancer" ++ ascii "." ++ key) →
      (∃ field, Offends root true field ∧ NamesField msg field) ∧
        ¬ ∃ lb, root.find? (ascii "load_balancer") = some lb ∧ BalancerMeets lb :=
    fun mem h => unmet (balancer_fails found mem h.1 h.2)
  refine Checks.bind ((requireString_checks _ _ _).mono (fun _ h => h) fun _ h => fails (by simp [loadBalancerFields]) h)
    fun ip hip => ?_
  refine Checks.bind ((requirePort_checks _ _ _).mono (fun _ h => h) fun _ h => fails (by simp [loadBalancerFields]) h)
    fun port ⟨hport, hasPort⟩ => ?_
  refine Checks.bind ((requireInt_checks _ _ _ (by decide)).mono (fun _ h => h) fun _ h =>
    fails (by simp [loadBalancerFields, kMaxIntervalMs]) h) fun interval ⟨hinterval, hasInterval⟩ => ?_
  refine Checks.bind ((requireBackends_checks found).mono (fun _ h => h) fun _ h => unmet h) fun l ⟨hl, four⟩ => ?_
  refine Checks.bind ((readBackends_checks found hl (List.drop_zero)).mono (fun _ h => h) fun _ h =>
    unmet ⟨h.1, ?_⟩) fun cfgs ⟨meets, stored⟩ => ?_
  · intro met
    obtain ⟨l', hl', -, all⟩ := met.backends
    cases hl.symm.trans hl'
    exact h.2 all
  · refine ⟨lb, found, ⟨⟨object, ?_⟩, l, hl, four, meets⟩, hip, hport, hinterval, l, hl, stored⟩
    simp only [loadBalancerFields, List.forall_mem_cons]
    exact ⟨⟨_, hip, ip, rfl⟩, hasPort, hasInterval, by simp⟩

/-- What `load_config` checks: the load balancer only if its caller asks for it. -/
structure Accepted (root : Json) (requireLoadBalancer : Bool) : Prop where
  object : root.isObject = true
  server : ServerMeets root
  loadBalancer : requireLoadBalancer = true → ∃ lb, root.find? (ascii "load_balancer") = some lb ∧ BalancerMeets lb

structure Stored (root : Json) (cfg : ConfigFile) : Prop where
  server : ∃ server, root.find? (ascii "server") = some server ∧ ServerStored server cfg.server
  loadBalancer : cfg.hasLoadBalancer = true →
    ∃ lb, root.find? (ascii "load_balancer") = some lb ∧ BalancerStored lb cfg.loadBalancer

theorem loadDocument_checks (root : Json) (requireLoadBalancer : Bool) : Checks (loadDocument root requireLoadBalancer)
    (fun cfg => Accepted root requireLoadBalancer ∧ Stored root cfg)
    (fun msg => (∃ field, Offends root requireLoadBalancer field ∧ NamesField msg field) ∧
      ¬ Accepted root requireLoadBalancer) := by
  unfold loadDocument
  split
  · rename_i object
    refine Checks.bind ((readServer_checks root _).mono (fun _ h => h) fun _ h => ⟨h.1, fun accepted => h.2 accepted.server⟩)
      fun cfg ⟨server, found, meets, stored⟩ => ?_
    cases requireLoadBalancer with
    | false => exact ⟨⟨object, ⟨server, found, meets⟩, by simp⟩, ⟨server, found, stored⟩, by simp⟩
    | true =>
      refine Checks.bind ((readLoadBalancer_checks root).mono (fun _ h => h) fun _ h =>
        ⟨h.1, fun accepted => h.2 (accepted.loadBalancer rfl)⟩) fun cfg' ⟨lb, found', meets', stored'⟩ => ?_
      exact ⟨⟨object, ⟨server, found, meets⟩, fun _ => ⟨lb, found', meets'⟩⟩, ⟨server, found, stored⟩,
        fun _ => ⟨lb, found', stored'⟩⟩
  · rename_i other
    exact ⟨⟨_, .root (Bool.eq_false_iff.mpr other), failType_names _⟩, fun accepted => other accepted.object⟩

theorem loadDocument_ok_iff (root : Json) (requireLoadBalancer : Bool) :
    (∃ cfg, loadDocument root requireLoadBalancer = .ok cfg) ↔ Accepted root requireLoadBalancer := by
  have checks := loadDocument_checks root requireLoadBalancer
  cases load : loadDocument root requireLoadBalancer with
  | ok cfg =>
    rw [load] at checks
    exact ⟨fun _ => checks.1, fun _ => ⟨cfg, rfl⟩⟩
  | error msg =>
    rw [load] at checks
    constructor
    · rintro ⟨cfg, h⟩
      cases h
    · intro accepted
      exact absurd accepted checks.2

end Load

/-- Loading does what the documentation says: it accepts the documents of the schema and no others,
stores their numbers as they are, and names a field that is wrong when it refuses. -/
structure FaithfulConfig (root : Json) (load : Except Bytes ConfigFile) : Prop where
  accepts : (∃ cfg, load = .ok cfg) ↔ WellFormed root
  stores : ∀ cfg, load = .ok cfg → Stored root cfg
  names : ∀ msg, load = .error msg → ∃ field, Offends root false field ∧ NamesField msg field

/-- The server and the client never look at the load balancer, so they are right about a document
unless only its load balancer is wrong. -/
theorem mainConfig_faithful_iff (path : Bytes) {text : Bytes} {parse : Bytes → Except Bytes Json} {root : Json}
    (parsed : parse text = .ok root) : FaithfulConfig root (mainConfig path (some text) parse) ↔
      (root.isObject = true ∧ ServerMeets root →
        ∀ lb, root.find? (ascii "load_balancer") = some lb → BalancerMeets lb) := by
  have load : mainConfig path (some text) parse = loadDocument root false := by
    simp only [mainConfig, loadConfig, parsed]
  have checks := loadDocument_checks root false
  rw [load]
  constructor
  · rintro ⟨accepts, -, -⟩ ⟨object, server⟩
    have loaded := (loadDocument_ok_iff root false).mpr ⟨object, server, by simp⟩
    exact (accepts.mp loaded).loadBalancer
  · intro only
    refine ⟨?_, fun cfg hcfg => ?_, fun msg hmsg => ?_⟩
    · rw [loadDocument_ok_iff]
      exact ⟨fun h => ⟨h.object, h.server, only ⟨h.object, h.server⟩⟩, fun h => ⟨h.object, h.server, by simp⟩⟩
    · rw [hcfg] at checks
      exact checks.2
    · rw [hmsg] at checks
      exact checks.1

def document (lb : Json) : Json :=
  .object [(ascii "server", .object [(ascii "ip", .string (ascii "127.0.0.1")), (ascii "port", .unsigned 9000),
    (ascii "server_threads", .unsigned 4), (ascii "client_threads", .unsigned 8)]), (ascii "load_balancer", lb)]

def documentText (lb : Bytes) : Bytes :=
  ascii "\x7b\"server\": \x7b\"ip\": \"127.0.0.1\", \"port\": 9000, \"server_threads\": 4, \"client_threads\": 8\x7d, " ++
    ascii "\"load_balancer\": " ++ lb ++ ascii "\x7d"

def backend (port : UInt64) : Json := .object [(ascii "ip", .string (ascii "127.0.0.1")), (ascii "port", .unsigned port)]

def backendText (port : Nat) : Bytes := ascii "\x7b\"ip\": \"127.0.0.1\", \"port\": " ++ decimal port ++ ascii "\x7d"

def balancer : Json :=
  .object [(ascii "ip", .string (ascii "127.0.0.1")), (ascii "port", .unsigned 8000),
    (ascii "health_interval_ms", .unsigned 1000),
    (ascii "backends", .array [backend 9001, backend 9002, backend 9003, backend 9004])]

def balancerText : Bytes :=
  ascii "\x7b\"ip\": \"127.0.0.1\", \"port\": 8000, \"health_interval_ms\": 1000, \"backends\": [" ++
    backendText 9001 ++ ascii ", " ++ backendText 9002 ++ ascii ", " ++ backendText 9003 ++ ascii ", " ++ backendText 9004 ++
    ascii "]\x7d"

/-- A parser that knows one text. -/
def parseOnly (text : Bytes) (root : Json) : Bytes → Except Bytes Json := fun given =>
  if given = text then .ok root else .error (ascii "parse error")

theorem mainConfig_faithful_iff_single : FaithfulConfig (document balancer)
    (mainConfig (ascii "config.json") (some (documentText balancerText))
      (parseOnly (documentText balancerText) (document balancer))) := by
  have accepted : Accepted (document balancer) true := (loadDocument_ok_iff _ _).mp ⟨_, rfl⟩
  obtain ⟨lb, found, meets⟩ := accepted.loadBalancer rfl
  refine (mainConfig_faithful_iff (ascii "config.json") (if_pos rfl)).mpr fun _ lb' found' => ?_
  cases found.symm.trans found'
  exact meets

theorem mainConfig_unfaithful : ¬ FaithfulConfig (document .null)
    (mainConfig (ascii "config.json") (some (documentText (ascii "null")))
      (parseOnly (documentText (ascii "null")) (document .null))) := by
  intro faithful
  have parsed : parseOnly (documentText (ascii "null")) (document .null) (documentText (ascii "null")) = .ok (document .null) :=
    if_pos rfl
  have loaded : ∃ cfg, loadDocument (document .null) false = .ok cfg := ⟨_, rfl⟩
  rw [mainConfig, loadConfig, parsed] at faithful
  have meets := (faithful.accepts.mp loaded).loadBalancer .null (by rfl)
  cases meets.fields.object

end LinkScheduling
