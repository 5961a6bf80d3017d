import Marshal.Fleet.Client
import Marshal.Lib.System
import Marshal.Store

/-! The fleet supervisor and the state directory.

Commands write the server record, the supervisor polls it and keeps a client running for
it, and a client saves the token its server mints. They share two files and no lock. A
saved token carries no trace of the server it is from: next to another record it is
presented to the wrong one. In a run in which no token meets another record's client
(`InStep`) each client presents its own server's token (`own_token`). -/
namespace Marshal.Daemon
open Transition Config

/-! ### Commands -/

/-- The identity of the connection to hold; the per-agent token is no part of it. -/
structure FleetTarget where
  address : String
  name : String
  fingerprint : String := ""
  ca : String := ""
  enrollToken : String := ""
  deriving DecidableEq, Repr

/-- What a command does to the files, one step each. -/
inductive FileOp where
  | removeServer
  | removeToken
  | saveServer (sc : ServerConfig)

inductive FleetCli where
  | enroll (sc : ServerConfig)
  | unenroll
  /-- `start` with a server block -/
  | start (sc : ServerConfig)
  | selfEnroll (sc : ServerConfig)

def FleetCli.ops : FleetCli → List FileOp
  | .enroll sc => [.removeServer, .removeToken, .saveServer sc]
  | .unenroll => [.removeServer, .removeToken]
  | .start sc | .selfEnroll sc => [.saveServer sc]

/-! ### The supervisor -/

structure FleetRunner where
  target : FleetTarget
  client : Fleet.Client
  cancelled : Bool := false
  returned : Bool := false
  /-- A minted token from the first message that is not saved yet, and when it came. -/
  acked : Option (String × Nat) := none

/-- Started and neither stopped nor returned. -/
def FleetRunner.live (r : FleetRunner) : Bool := !r.cancelled && !r.returned

/-- The name of the host, and whether a pin gives a TLS configuration. -/
structure Site where
  hostname : String
  clientTLS : String → String → Bool

/-- The record on disk as a target: none without an address. -/
def targetOf (w : Site) (sc : ServerConfig) : Option FleetTarget :=
  if sc.address = "" then none
  else some { address := sc.address, name := if sc.name = "" then w.hostname else sc.name,
              fingerprint := sc.fingerprint, ca := sc.ca, enrollToken := sc.token }

def storedTarget (w : Site) (st : Store) : Option FleetTarget :=
  match st.LoadServer with
  | .ok (some sc) => targetOf w sc
  | _ => none

/-- The record is read from the files as they are at first, the token from what they are then. -/
def loadFleetTarget (w : Site) (first then_ : Store) : Option (FleetTarget × String) :=
  match storedTarget w first with
  | none => none
  | some tgt =>
    let fleetToken := then_.LoadFleetToken
    if fleetToken = "" ∧ tgt.enrollToken = "" then none else some (tgt, fleetToken)

structure Host where
  store : Store := {}
  /-- The commands under way, each with what it has left to do. -/
  commands : List (List FileOp) := []
  /-- The files when the supervisor read the record, until it reads the token. -/
  seen : Option Store := none
  /-- The target held, and its runner. -/
  curr : Option (FleetTarget × Nat) := none
  runners : List FleetRunner := []
  /-- The daemon is shutting down. -/
  closed : Bool := false
  -- the history: no step depends on it
  clock : Nat := 0
  /-- When the record of a target was last put in place of another or of none. -/
  enrolled : FleetTarget → Nat := fun _ => 0
  /-- Every token that a target returned, and when it came. -/
  issued : List (FleetTarget × String × Nat) := []

namespace Host

def stored (w : Site) (s : Host) : Option FleetTarget := storedTarget w s.store

def put (w : Site) (s : Host) (sc : ServerConfig) : Host :=
  let t := { s with store := s.store.SaveServer sc }
  if targetOf w sc = s.stored w then t
  else { t with
    clock := s.clock + 1
    enrolled := fun tgt => if targetOf w sc = some tgt then s.clock + 1 else s.enrolled tgt }

def file (w : Site) (s : Host) : FileOp → Host
  | .removeServer => { s with store := s.store.removeServer }
  | .removeToken => { s with store := s.store.removeToken }
  | .saveServer sc => s.put w sc

/-- What an unenrollment does, without another step in between. -/
theorem unenroll_store (w : Site) (s : Host) :
    (FleetCli.unenroll.ops.foldl (file w) s).store = s.store.ClearServer := rfl

def stop (s : Host) : Host :=
  match s.curr with
  | none => s
  | some (_, i) =>
    { s with runners := s.runners.modify i fun r => { r with cancelled := true }, curr := none }

/-- A runner whose pin is bad returns at once. -/
def start (w : Site) (s : Host) (tgt : FleetTarget) (fleetToken : String) : Host :=
  { s with
    curr := some (tgt, s.runners.length)
    runners := s.runners ++ [{
      target := tgt
      client := { name := tgt.name, token := fleetToken, enrollTok := tgt.enrollToken }
      returned := !w.clientTLS tgt.fingerprint tgt.ca }] }

/-- The rest of a poll once both files are read. -/
def decide (w : Site) (s : Host) : Option (FleetTarget × String) → Host
  | none => s.stop
  | some (tgt, fleetToken) =>
    if s.curr.map Prod.fst = some tgt then s else s.stop.start w tgt fleetToken

def setRunner (s : Host) (i : Nat) (r : FleetRunner) : Host := { s with runners := s.runners.set i r }

end Host

inductive HostAction where
  | command (c : FleetCli)
  /-- Command `i` does its next step. -/
  | file (i : Nat)
  | readServer
  | readToken
  /-- Runner `i` receives a first message with a minted token. -/
  | ack (i : Nat) (token : String)
  | persist (i : Nat) (ok : Bool)
  /-- A stopped runner returns. -/
  | quit (i : Nat)
  /-- The daemon shuts down. -/
  | done

/-- A minted token is base64url text. -/
def minted (token : String) : Bool := token != "" && token.toList.all fun c => !c.isWhitespace

theorem minted_iff {token : String} :
    minted token = true ↔ token ≠ "" ∧ ∀ c ∈ token.toList, c.isWhitespace = false := by
  simp [minted]

namespace Host

def step (w : Site) (s : Host) : HostAction → Option Host
  | .command c => some { s with commands := s.commands ++ [c.ops] }
  | .file i => match s.commands[i]? with
    | some (op :: rest) => some ({ s with commands := s.commands.set i rest }.file w op)
    | _ => none
  | .readServer =>
    if s.closed then none
    else match s.seen with
      | none => some { s with seen := some s.store }
      | some _ => none
  | .readToken => match s.seen with
    | some first => some ({ s with seen := none }.decide w (loadFleetTarget w first s.store))
    | none => none
  | .ack i token => match s.runners[i]? with
    | some r =>
      if r.returned ∨ r.acked ≠ none ∨ minted token = false then none
      else some { s.setRunner i { r with acked := some (token, s.clock) } with
        issued := (r.target, token, s.clock) :: s.issued }
    | none => none
  | .persist i ok => match s.runners[i]? with
    | some r => match r.acked with
      | some (token, _) =>
        let conn : Fleet.Conn Unit := {}
        let client := (r.client.recvAck ok conn (.helloAck { agentToken := token })).1
        some { s.setRunner i { r with acked := none, client } with
          store := if ok then s.store.SaveFleetToken token else s.store }
      | none => none
    | none => none
  | .quit i => match s.runners[i]? with
    | some r =>
      if r.cancelled ∧ r.acked = none then some (s.setRunner i { r with returned := true }) else none
    | none => none
  | .done => if s.seen.isNone then some { s.stop with closed := true } else none

end Host

def fleetHost (w : Site) : System Host HostAction where
  init s := s = {}
  step := Host.step w

/-! ### What is promised and what it takes -/

namespace Host

/-- The target has returned the token since its record was last put in place. -/
def Since (s : Host) (tgt : FleetTarget) (token : String) : Prop :=
  ∃ t, (tgt, token, t) ∈ s.issued ∧ s.enrolled tgt ≤ t

/-- A live client presents its target's enroll token or a token its target returned. -/
def OwnToken (s : Host) : Prop :=
  ∀ r ∈ s.runners, r.live = true → ∀ token enroll, r.client.metadata = some (token, enroll) →
    (token ≠ "" → s.Since r.target token) ∧ (enroll ≠ "" → enroll = r.target.enrollToken)

def OneLive (s : Host) : Prop :=
  ∀ (i j : Nat) (r r' : FleetRunner), s.runners[i]? = some r → s.runners[j]? = some r' → r.live = true →
    r'.live = true → i = j

/-- Counting also what is stopped and has not returned. -/
def OneRunning (s : Host) : Prop :=
  ∀ (i j : Nat) (r r' : FleetRunner), s.runners[i]? = some r → s.runners[j]? = some r' →
    r.returned = false → r'.returned = false → i = j

/-- No token meets a client of another record: a record is put in place only with no token on disk
and with none in use for that target, a token is saved only next to the record it was received for,
and one is read only next to the record that was read before it. -/
def InStep (w : Site) (s : Host) : HostAction → Prop
  | .file i => ∀ sc rest tgt, s.commands[i]? = some (.saveServer sc :: rest) →
    targetOf w sc = some tgt → s.stored w = some tgt ∨ (s.store.LoadFleetToken = "" ∧
      ∀ r ∈ s.runners, r.live = true → r.target = tgt → r.client.token = "")
  | .persist i ok => ∀ (r : FleetRunner) token t, s.runners[i]? = some r →
    r.acked = some (token, t) → ok = true →
    s.stored w = some r.target ∧ s.enrolled r.target ≤ t
  | .readToken => ∀ first tgt token, s.seen = some first →
    loadFleetTarget w first s.store = some (tgt, token) → token = "" ∨ s.stored w = some tgt
  | _ => True

/-- A runner is started only when the ones before it have returned. -/
def Awaited (w : Site) (s : Host) : HostAction → Prop
  | .readToken => ∀ first tgt token, s.seen = some first →
    loadFleetTarget w first s.store = some (tgt, token) → s.curr.map Prod.fst ≠ some tgt →
      ∀ r ∈ s.runners, r.returned = true
  | _ => True

/-! ### Invariants -/

structure Inv (w : Site) (s : Host) : Prop where
  saved : s.store.LoadFleetToken ≠ "" → ∀ tgt, s.stored w = some tgt →
    s.Since tgt s.store.LoadFleetToken
  token : ∀ (i : Nat) (r : FleetRunner), s.runners[i]? = some r → r.live = true → r.client.token = "" ∨
    s.Since r.target r.client.token
  enroll : ∀ (i : Nat) (r : FleetRunner), s.runners[i]? = some r → r.client.enrollTok = "" ∨
    r.client.enrollTok = r.target.enrollToken
  persists : ∀ (i : Nat) (r : FleetRunner), s.runners[i]? = some r → r.client.persists = true
  acked : ∀ (i : Nat) (r : FleetRunner) token t, s.runners[i]? = some r → r.acked = some (token, t) →
    minted token = true ∧ (r.target, token, t) ∈ s.issued
  current : ∀ (i : Nat) (r : FleetRunner), s.runners[i]? = some r → r.cancelled = false →
    ∃ tgt, s.curr = some (tgt, i)

theorem inv_empty (w : Site) : Inv w {} where
  saved h := absurd rfl h
  token i r h := by cases h
  enroll i r h := by cases h
  persists i r h := by cases h
  acked i r token t h := by cases h
  current i r h := by cases h

theorem Inv.ownToken {w : Site} {s : Host} (h : s.Inv w) : s.OwnToken := by
  intro r hr hlive token enroll hmeta
  obtain ⟨i, hi, rfl⟩ := List.getElem_of_mem hr
  have hget := List.getElem?_eq_getElem hi
  unfold Fleet.Client.metadata at hmeta
  split at hmeta
  · cases hmeta
    refine ⟨fun hne => ?_, fun hne => absurd rfl hne⟩
    exact (h.token i _ hget hlive).resolve_left hne
  · split at hmeta
    · cases hmeta
      refine ⟨fun hne => absurd rfl hne, fun hne => ?_⟩
      exact (h.enroll i _ hget).resolve_left hne
    · split at hmeta
      · cases hmeta
      · cases hmeta
        exact ⟨fun hne => absurd rfl hne, fun hne => absurd rfl hne⟩

theorem Inv.one_live {w : Site} {s : Host} (h : s.Inv w) : s.OneLive := by
  intro i j r r' hi hj hlive hlive'
  have hopen : r.cancelled = false := by
    unfold FleetRunner.live at hlive
    simp_all
  have hopen' : r'.cancelled = false := by
    unfold FleetRunner.live at hlive'
    simp_all
  obtain ⟨tgt, hcurr⟩ := h.current i r hi hopen
  obtain ⟨tgt', hcurr'⟩ := h.current j r' hj hopen'
  rw [hcurr, Option.some.injEq, Prod.mk.injEq] at hcurr'
  exact hcurr'.2

theorem Since.grow {s t : Host} {tgt : FleetTarget} {token : String} (h : s.Since tgt token)
    (hissued : ∀ x ∈ s.issued, x ∈ t.issued) (henrolled : t.enrolled tgt = s.enrolled tgt) :
    t.Since tgt token := by
  obtain ⟨n, hmem, hle⟩ := h
  exact ⟨n, hissued _ hmem, henrolled ▸ hle⟩

/-- What a step leaves of the runners while the files and the history stay. -/
theorem Inv.of_runners {w : Site} {s t : Host} (h : s.Inv w) (hstore : t.store = s.store)
    (hissued : t.issued = s.issued) (henrolled : t.enrolled = s.enrolled)
    (hrunners : ∀ (i : Nat) (r : FleetRunner), t.runners[i]? = some r →
      ∃ r₀ : FleetRunner, s.runners[i]? = some r₀ ∧
      r.target = r₀.target ∧ r.client = r₀.client ∧ (r.live = true → r₀.live = true) ∧
      (r.acked = none ∨ r.acked = r₀.acked))
    (hcurrent : ∀ (i : Nat) (r : FleetRunner), t.runners[i]? = some r → r.cancelled = false →
      ∃ tgt, t.curr = some (tgt, i)) : t.Inv w where
  saved hne tgt htgt := by
    rw [hstore] at hne ⊢
    have hsince := h.saved hne tgt (by rwa [stored, hstore] at htgt)
    exact hsince.grow (fun x hx => hissued ▸ hx) (by rw [henrolled])
  token i r hget hlive := by
    obtain ⟨r₀, hget₀, htarget, hclient, hlive₀, -⟩ := hrunners i r hget
    rw [htarget, hclient]
    rcases h.token i r₀ hget₀ (hlive₀ hlive) with hempty | hsince
    · exact .inl hempty
    · exact .inr (hsince.grow (fun x hx => hissued ▸ hx) (by rw [henrolled]))
  enroll i r hget := by
    obtain ⟨r₀, hget₀, htarget, hclient, -, -⟩ := hrunners i r hget
    rw [htarget, hclient]
    exact h.enroll i r₀ hget₀
  persists i r hget := by
    obtain ⟨r₀, hget₀, -, hclient, -, -⟩ := hrunners i r hget
    rw [hclient]
    exact h.persists i r₀ hget₀
  acked i r token t' hget hacked := by
    obtain ⟨r₀, hget₀, htarget, -, -, hnone | hsame⟩ := hrunners i r hget
    · rw [hnone] at hacked
      cases hacked
    · rw [htarget, hissued]
      exact h.acked i r₀ token t' hget₀ (hsame ▸ hacked)
  current := hcurrent

theorem inv_stop {w : Site} {s : Host} (h : s.Inv w) : s.stop.Inv w := by
  unfold stop
  cases hcurr : s.curr with
  | none => exact h
  | some x =>
    obtain ⟨tgt, i⟩ := x
    have hget : ∀ (j : Nat) (r : FleetRunner),
        (s.runners.modify i fun r => { r with cancelled := true })[j]? = some r →
        ∃ r₀, s.runners[j]? = some r₀ ∧ r = if i = j then { r₀ with cancelled := true } else r₀ := by
      intro j r hr
      rw [List.getElem?_modify] at hr
      obtain ⟨r₀, hr₀, rfl⟩ := Option.map_eq_some_iff.mp hr
      refine ⟨r₀, hr₀, ?_⟩
      split <;> rfl
    refine h.of_runners rfl rfl rfl ?_ ?_
    · intro j r hr
      obtain ⟨r₀, hr₀, rfl⟩ := hget j r hr
      refine ⟨r₀, hr₀, ?_⟩
      split
      · exact ⟨rfl, rfl, fun hlive => absurd hlive (by simp [FleetRunner.live]), .inr rfl⟩
      · exact ⟨rfl, rfl, id, .inr rfl⟩
    · intro j r hr hopen
      obtain ⟨r₀, hr₀, rfl⟩ := hget j r hr
      split at hopen
      · cases hopen
      · rename_i hne
        obtain ⟨tgt', hcurr'⟩ := h.current j r₀ hr₀ hopen
        rw [hcurr, Option.some.injEq, Prod.mk.injEq] at hcurr'
        exact absurd hcurr'.2 hne

/-- After a stop no runner is live. -/
theorem stop_cancelled {w : Site} {s : Host} (h : s.Inv w) {i : Nat} {r : FleetRunner}
    (hget : s.stop.runners[i]? = some r) : r.cancelled = true := by
  cases hcancelled : r.cancelled with
  | true => rfl
  | false =>
    obtain ⟨tgt, hcurr⟩ := (inv_stop h).current i r hget hcancelled
    unfold stop at hcurr
    split at hcurr
    · rename_i hnone
      rw [hnone] at hcurr
      cases hcurr
    · cases hcurr

theorem inv_start {w : Site} {s : Host} (h : s.Inv w) (hnone : ∀ (i : Nat) (r : FleetRunner),
    s.runners[i]? = some r → r.cancelled = true) {tgt : FleetTarget} {fleetToken : String}
    (hown : fleetToken = "" ∨ s.Since tgt fleetToken) : (s.start w tgt fleetToken).Inv w := by
  have hget : ∀ {i : Nat} {r : FleetRunner}, (s.start w tgt fleetToken).runners[i]? = some r →
      s.runners[i]? = some r ∨ (i = s.runners.length ∧ r = {
        target := tgt
        client := { name := tgt.name, token := fleetToken, enrollTok := tgt.enrollToken }
        returned := !w.clientTLS tgt.fingerprint tgt.ca }) := by
    intro i r hr
    simp only [start, List.getElem?_append] at hr
    split at hr
    · exact .inl hr
    · rename_i hlt
      rw [List.getElem?_singleton] at hr
      split at hr
      · cases hr
        exact .inr ⟨by omega, rfl⟩
      · cases hr
  refine ⟨h.saved, fun i r hr hlive => ?_, fun i r hr => ?_, fun i r hr => ?_,
    fun i r token t hr hacked => ?_, fun i r hr hopen => ?_⟩
  · rcases hget hr with hr | ⟨-, rfl⟩
    · exact h.token i r hr hlive
    · exact hown
  · rcases hget hr with hr | ⟨-, rfl⟩
    · exact h.enroll i r hr
    · exact .inr rfl
  · rcases hget hr with hr | ⟨-, rfl⟩
    · exact h.persists i r hr
    · rfl
  · rcases hget hr with hr | ⟨-, rfl⟩
    · exact h.acked i r token t hr hacked
    · cases hacked
  · rcases hget hr with hr | ⟨rfl, -⟩
    · rw [hnone i r hr] at hopen
      cases hopen
    · exact ⟨tgt, rfl⟩

/-! ### Steps -/

theorem loadFleetTarget_token {w : Site} {first then_ : Store} {tgt : FleetTarget} {token : String}
    (h : loadFleetTarget w first then_ = some (tgt, token)) : token = then_.LoadFleetToken := by
  unfold loadFleetTarget at h
  split at h
  · cases h
  · simp only at h
    split at h <;> cases h
    rfl

theorem inv_decide {w : Site} {s : Host} (h : s.Inv w) {o : Option (FleetTarget × String)}
    (hown : ∀ tgt token, o = some (tgt, token) → token = "" ∨ s.Since tgt token) :
    (s.decide w o).Inv w := by
  cases o with
  | none => exact inv_stop h
  | some x =>
    obtain ⟨tgt, token⟩ := x
    unfold decide
    simp only
    split
    · exact h
    · refine inv_start (inv_stop h) (fun i r => stop_cancelled h) ?_
      have hstop : s.stop.issued = s.issued ∧ s.stop.enrolled = s.enrolled := by
        unfold stop
        split <;> exact ⟨rfl, rfl⟩
      rcases hown tgt token rfl with hempty | hsince
      · exact .inl hempty
      · exact .inr (hsince.grow (fun x hx => hstop.1 ▸ hx) (by rw [hstop.2]))

theorem stored_saveServer {w : Site} {s t : Host} {sc : ServerConfig}
    (h : t.store = s.store.SaveServer sc) : t.stored w = targetOf w sc := by
  simp [stored, storedTarget, h]

theorem inv_put {w : Site} {s : Host} (h : s.Inv w) {sc : ServerConfig}
    (hrule : ∀ tgt, targetOf w sc = some tgt → s.stored w = some tgt ∨
      (s.store.LoadFleetToken = "" ∧
        ∀ r ∈ s.runners, r.live = true → r.target = tgt → r.client.token = "")) :
    (s.put w sc).Inv w := by
  unfold put
  split
  · rename_i hsame
    refine ⟨fun hne tgt htgt => ?_, h.token, h.enroll, h.persists, h.acked, h.current⟩
    rw [stored_saveServer rfl, hsame] at htgt
    exact h.saved hne tgt htgt
  · rename_i hother
    refine ⟨fun hne tgt htgt => ?_, fun i r hget hlive => ?_, h.enroll, h.persists, h.acked, h.current⟩
    · rw [stored_saveServer rfl] at htgt
      rcases hrule tgt htgt with hstored | ⟨hempty, -⟩
      · exact absurd (htgt.trans hstored.symm) hother
      · exact absurd hempty hne
    · by_cases htgt : targetOf w sc = some r.target
      · rcases hrule r.target htgt with hstored | ⟨-, hunused⟩
        · exact absurd (htgt.trans hstored.symm) hother
        · exact .inl (hunused r (List.mem_of_getElem? hget) hlive rfl)
      · rcases h.token i r hget hlive with hempty | hsince
        · exact .inl hempty
        · exact .inr (hsince.grow (fun _ hx => hx) (if_neg htgt))

theorem inv_file {w : Site} {s : Host} (h : s.Inv w) (op : FileOp)
    (hrule : ∀ sc tgt, op = .saveServer sc → targetOf w sc = some tgt → s.stored w = some tgt ∨
      (s.store.LoadFleetToken = "" ∧
        ∀ r ∈ s.runners, r.live = true → r.target = tgt → r.client.token = "")) :
    (s.file w op).Inv w := by
  cases op with
  | removeServer =>
    exact ⟨fun _ tgt htgt => absurd htgt (by simp [file, stored, storedTarget]), h.token, h.enroll,
      h.persists, h.acked, h.current⟩
  | removeToken =>
    exact ⟨fun hne => absurd rfl hne, h.token, h.enroll, h.persists, h.acked, h.current⟩
  | saveServer sc => exact inv_put h fun tgt => hrule sc tgt rfl

/-- Runner `i` goes on to `r'`. -/
theorem get_setRunner {s : Host} {i j : Nat} {r' x : FleetRunner}
    (h : (s.setRunner i r').runners[j]? = some x) :
    (j = i ∧ x = r') ∨ (j ≠ i ∧ s.runners[j]? = some x) := by
  simp only [setRunner, List.getElem?_set] at h
  split at h
  · rename_i hij
    split at h
    · cases h
      exact .inl ⟨hij.symm, rfl⟩
    · cases h
  · rename_i hij
    exact .inr ⟨fun hji => hij hji.symm, h⟩

theorem inv_ack {w : Site} {s : Host} (h : s.Inv w) {i : Nat} {r : FleetRunner} {token : String}
    (hget : s.runners[i]? = some r) (hminted : minted token = true) :
    Inv w { s.setRunner i { r with acked := some (token, s.clock) } with
      issued := (r.target, token, s.clock) :: s.issued } where
  saved hne tgt htgt :=
    (h.saved hne tgt htgt).grow (fun _ hx => List.mem_cons_of_mem _ hx) rfl
  token j x hx hlive := by
    have hold : x.client.token = "" ∨ s.Since x.target x.client.token := by
      rcases get_setRunner hx with ⟨-, rfl⟩ | ⟨-, hx⟩
      · exact h.token i r hget hlive
      · exact h.token j x hx hlive
    exact hold.imp_right fun hsince => hsince.grow (fun _ hx => List.mem_cons_of_mem _ hx) rfl
  enroll j x hx := by
    rcases get_setRunner hx with ⟨-, rfl⟩ | ⟨-, hx⟩
    · exact h.enroll i r hget
    · exact h.enroll j x hx
  persists j x hx := by
    rcases get_setRunner hx with ⟨-, rfl⟩ | ⟨-, hx⟩
    · exact h.persists i r hget
    · exact h.persists j x hx
  acked j x token' t hx hacked := by
    rcases get_setRunner hx with ⟨-, rfl⟩ | ⟨-, hx⟩
    · cases hacked
      exact ⟨hminted, List.mem_cons_self⟩
    · obtain ⟨hminted', hmem⟩ := h.acked j x token' t hx hacked
      exact ⟨hminted', List.mem_cons_of_mem _ hmem⟩
  current j x hx hopen := by
    rcases get_setRunner hx with ⟨rfl, rfl⟩ | ⟨-, hx⟩
    · exact h.current j r hget hopen
    · exact h.current j x hx hopen

/-- The client authenticates with the minted token from then on, if it could be saved. -/
theorem recvAck_minted {Op : Type} (cl : Fleet.Client) (c : Fleet.Conn Op) (ok : Bool)
    {token : String} (hpersists : cl.persists = true) (hne : token ≠ "") :
    (cl.recvAck ok c (.helloAck { agentToken := token })).1 =
      if ok then { cl with token, enrollTok := "" } else cl := by
  cases ok <;> simp [Fleet.Client.recvAck, Proto.ServerMessage.helloAck?, hpersists, hne]

theorem inv_persist {w : Site} {s : Host} (h : s.Inv w) {i : Nat} {r : FleetRunner} {token : String}
    {t : Nat} (hget : s.runners[i]? = some r) (hacked : r.acked = some (token, t)) {ok : Bool}
    {client : Fleet.Client}
    (hclient : client = if ok then { r.client with token, enrollTok := "" } else r.client)
    (hrule : ok = true → s.stored w = some r.target ∧ s.enrolled r.target ≤ t) :
    Inv w { s.setRunner i { r with acked := none, client } with
      store := if ok then s.store.SaveFleetToken token else s.store } := by
  obtain ⟨hminted, hissued⟩ := h.acked i r token t hget hacked
  have hminted := minted_iff.mp hminted
  refine ⟨fun hne tgt htgt => ?_, fun j x hx hlive => ?_, fun j x hx => ?_, fun j x hx => ?_,
    fun j x token' t' hx hacked' => ?_, fun j x hx hopen => ?_⟩
  · cases ok with
    | false => exact h.saved hne tgt htgt
    | true =>
      obtain ⟨hstored, hle⟩ := hrule rfl
      have htgt : s.stored w = some tgt := htgt
      rw [hstored, Option.some.injEq] at htgt
      subst htgt
      refine ⟨t, ?_, hle⟩
      rw [if_pos rfl, Store.LoadFleetToken_SaveFleetToken _ hminted.2]
      exact hissued
  · rcases get_setRunner hx with ⟨-, rfl⟩ | ⟨-, hx⟩
    · cases ok with
      | false =>
        rw [hclient]
        exact h.token i r hget hlive
      | true =>
        rw [hclient]
        exact .inr ⟨t, hissued, (hrule rfl).2⟩
    · exact h.token j x hx hlive
  · rcases get_setRunner hx with ⟨-, rfl⟩ | ⟨-, hx⟩
    · rw [hclient]
      cases ok with
      | false => exact h.enroll i r hget
      | true => exact .inl rfl
    · exact h.enroll j x hx
  · rcases get_setRunner hx with ⟨-, rfl⟩ | ⟨-, hx⟩
    · rw [hclient]
      cases ok <;> exact h.persists i r hget
    · exact h.persists j x hx
  · rcases get_setRunner hx with ⟨-, rfl⟩ | ⟨-, hx⟩
    · cases hacked'
    · exact h.acked j x token' t' hx hacked'
  · rcases get_setRunner hx with ⟨rfl, rfl⟩ | ⟨-, hx⟩
    · exact h.current j r hget hopen
    · exact h.current j x hx hopen

/-- Every step, with what it finds. -/
inductive Steps (w : Site) (s : Host) : HostAction → Host → Prop
  | command (c : FleetCli) : Steps w s (.command c) { s with commands := s.commands ++ [c.ops] }
  | file {i : Nat} {op : FileOp} {rest : List FileOp} (hcommand : s.commands[i]? = some (op :: rest)) :
    Steps w s (.file i) ({ s with commands := s.commands.set i rest }.file w op)
  | readServer (hopen : s.closed = false) (hseen : s.seen = none) :
    Steps w s .readServer { s with seen := some s.store }
  | readToken {first : Store} (hseen : s.seen = some first) :
    Steps w s .readToken ({ s with seen := none }.decide w (loadFleetTarget w first s.store))
  | ack {i : Nat} {token : String} {r : FleetRunner} (hget : s.runners[i]? = some r)
    (hrunning : r.returned = false) (hacked : r.acked = none) (hminted : minted token = true) :
    Steps w s (.ack i token) { s.setRunner i { r with acked := some (token, s.clock) } with
      issued := (r.target, token, s.clock) :: s.issued }
  | persist {i : Nat} {ok : Bool} {r : FleetRunner} {token : String} {t : Nat}
    (hget : s.runners[i]? = some r) (hacked : r.acked = some (token, t)) :
    Steps w s (.persist i ok) { s.setRunner i { r with
        acked := none
        client := (r.client.recvAck ok ({} : Fleet.Conn Unit) (.helloAck { agentToken := token })).1 } with
      store := if ok then s.store.SaveFleetToken token else s.store }
  | quit {i : Nat} {r : FleetRunner} (hget : s.runners[i]? = some r) (hcancelled : r.cancelled = true)
    (hacked : r.acked = none) : Steps w s (.quit i) (s.setRunner i { r with returned := true })
  | done (hseen : s.seen = none) : Steps w s .done { s.stop with closed := true }

theorem steps_of_step {w : Site} {s t : Host} {a : HostAction} (h : s.step w a = some t) :
    Steps w s a t := by
  cases a with
  | command c =>
    cases h
    exact .command c
  | file | readToken =>
    simp only [step] at h
    split at h <;> cases h
    constructor
    assumption
  | readServer =>
    simp only [step] at h
    split at h
    · cases h
    · rename_i hopen
      split at h <;> cases h
      exact .readServer (by simpa using hopen) (by assumption)
  | ack i token =>
    simp only [step] at h
    split at h
    · split at h <;> cases h
      rename_i r hget hguard
      simp only [not_or, Bool.not_eq_true, Bool.not_eq_false, Decidable.not_not] at hguard
      exact .ack hget hguard.1 hguard.2.1 hguard.2.2
    · cases h
  | persist i ok =>
    simp only [step] at h
    split at h
    · split at h <;> cases h
      rename_i r hget _ token t hacked
      exact .persist hget hacked
    · cases h
  | quit i =>
    simp only [step] at h
    split at h
    · split at h <;> cases h
      rename_i r hget hguard
      exact .quit hget hguard.1 hguard.2
    · cases h
  | done =>
    simp only [step] at h
    split at h <;> cases h
    rename_i hseen
    exact .done (Option.isNone_iff_eq_none.mp hseen)

theorem inv_quit {w : Site} {s : Host} (h : s.Inv w) {i : Nat} {r : FleetRunner}
    (hget : s.runners[i]? = some r) : (s.setRunner i { r with returned := true }).Inv w := by
  refine h.of_runners rfl rfl rfl ?_ ?_
  · intro j x hx
    rcases get_setRunner hx with ⟨rfl, rfl⟩ | ⟨-, hx⟩
    · exact ⟨r, hget, rfl, rfl, fun hlive => absurd hlive (by simp [FleetRunner.live]), .inr rfl⟩
    · exact ⟨x, hx, rfl, rfl, id, .inr rfl⟩
  · intro j x hx hopen
    rcases get_setRunner hx with ⟨rfl, rfl⟩ | ⟨-, hx⟩
    · exact h.current j r hget hopen
    · exact h.current j x hx hopen

theorem inv_step {w : Site} {s t : Host} {a : HostAction} (hrule : s.InStep w a) (h : s.Inv w)
    (hstep : s.step w a = some t) : t.Inv w := by
  cases steps_of_step hstep with
  | command | readServer =>
    exact ⟨h.saved, h.token, h.enroll, h.persists, h.acked, h.current⟩
  | @file i op rest hcommand =>
    have hrest : Inv w { s with commands := s.commands.set i rest } :=
      ⟨h.saved, h.token, h.enroll, h.persists, h.acked, h.current⟩
    refine inv_file hrest op fun sc tgt hop htgt => ?_
    exact hrule sc rest tgt (hop ▸ hcommand) htgt
  | @readToken first hseen =>
    have hread : Inv w { s with seen := none } :=
      ⟨h.saved, h.token, h.enroll, h.persists, h.acked, h.current⟩
    refine inv_decide hread fun tgt token hload => ?_
    by_cases hne : token = ""
    · exact .inl hne
    · have hstored := (hrule first tgt token hseen hload).resolve_left hne
      have htoken := loadFleetTarget_token hload
      rw [htoken] at hne ⊢
      exact .inr (h.saved hne tgt hstored)
  | ack hget _ _ hminted => exact inv_ack h hget hminted
  | @persist i ok r token t hget hacked =>
    have hne : token ≠ "" := (minted_iff.mp (h.acked i r token t hget hacked).1).1
    exact inv_persist h hget hacked (recvAck_minted r.client _ ok (h.persists i r hget) hne)
      (hrule r token t hget hacked)
  | quit hget => exact inv_quit h hget
  | done =>
    have hstop := inv_stop h
    exact ⟨hstop.saved, hstop.token, hstop.enroll, hstop.persists, hstop.acked, hstop.current⟩

/-! ### One runner at a time -/

theorem stop_returned {s : Host} {i : Nat} {r : FleetRunner} (h : s.stop.runners[i]? = some r) :
    ∃ r₀ : FleetRunner, s.runners[i]? = some r₀ ∧ r.returned = r₀.returned := by
  unfold stop at h
  split at h
  · exact ⟨r, h, rfl⟩
  · simp only [List.getElem?_modify] at h
    obtain ⟨r₀, hr₀, rfl⟩ := Option.map_eq_some_iff.mp h
    refine ⟨r₀, hr₀, ?_⟩
    split <;> rfl

theorem put_runners (w : Site) (s : Host) (sc : ServerConfig) : (s.put w sc).runners = s.runners := by
  unfold put
  simp only
  split <;> rfl

/-- Runners that are unreturned afterwards were so before. -/
theorem OneRunning.of_returned {s t : Host} (h : s.OneRunning)
    (hback : ∀ (i : Nat) (r : FleetRunner), t.runners[i]? = some r → r.returned = false →
      ∃ r₀ : FleetRunner, s.runners[i]? = some r₀ ∧ r₀.returned = false) : t.OneRunning := by
  intro i j r r' hi hj hr hr'
  obtain ⟨x, hx, hxr⟩ := hback i r hi hr
  obtain ⟨y, hy, hyr⟩ := hback j r' hj hr'
  exact h i j x y hx hy hxr hyr

theorem running_setRunner {s t : Host} (h : s.OneRunning) {i : Nat} {r r' : FleetRunner}
    (hget : s.runners[i]? = some r) (ht : t.runners = (s.setRunner i r').runners)
    (hreturned : r'.returned = false → r.returned = false) : t.OneRunning := by
  refine h.of_returned fun j x hx hopen => ?_
  rw [ht] at hx
  rcases get_setRunner hx with ⟨rfl, rfl⟩ | ⟨-, hx⟩
  · exact ⟨r, hget, hreturned hopen⟩
  · exact ⟨x, hx, hopen⟩

theorem running_stop {s : Host} (h : s.OneRunning) : s.stop.OneRunning := by
  refine h.of_returned fun i r hi hr => ?_
  obtain ⟨r₀, hr₀, heq⟩ := stop_returned hi
  exact ⟨r₀, hr₀, heq ▸ hr⟩

theorem running_decide {w : Site} {s : Host} (h : s.OneRunning) {o : Option (FleetTarget × String)}
    (hrule : ∀ tgt token, o = some (tgt, token) → s.curr.map Prod.fst ≠ some tgt →
      ∀ r ∈ s.runners, r.returned = true) : (s.decide w o).OneRunning := by
  cases o with
  | none => exact running_stop h
  | some x =>
    obtain ⟨tgt, token⟩ := x
    unfold decide
    simp only
    split
    · exact h
    · rename_i hother
      have hall := hrule tgt token rfl hother
      have hnew : ∀ (i : Nat) (r : FleetRunner), (s.stop.start w tgt token).runners[i]? = some r →
          r.returned = false → i = s.stop.runners.length := by
        intro i r hi hr
        simp only [start, List.getElem?_append] at hi
        split at hi
        · obtain ⟨r₀, hr₀, heq⟩ := stop_returned hi
          rw [heq, hall r₀ (List.mem_of_getElem? hr₀)] at hr
          cases hr
        · rename_i hle
          rw [List.getElem?_singleton] at hi
          split at hi
          · omega
          · cases hi
      intro i j r r' hi hj hr hr'
      rw [hnew i r hi hr, hnew j r' hj hr']

theorem running_step {w : Site} {s t : Host} {a : HostAction} (hrule : s.Awaited w a)
    (h : s.OneRunning) (hstep : s.step w a = some t) : t.OneRunning := by
  cases steps_of_step hstep with
  | command | readServer => exact h
  | @file i op rest _ =>
    cases op with
    | removeServer | removeToken => exact h
    | saveServer sc =>
      refine h.of_returned fun j r hr hopen => ⟨r, ?_, hopen⟩
      rwa [file, put_runners] at hr
  | @readToken first hseen =>
    have hread : OneRunning { s with seen := none } := h
    exact running_decide hread fun tgt token => hrule first tgt token hseen
  | ack hget | persist hget => exact running_setRunner h hget rfl id
  | quit hget => exact running_setRunner h hget rfl fun hr => absurd hr (by simp)
  | done => exact running_stop h

/-- **In a run in which no token meets a client of another record, every live client presents its
target's enroll token or a token its target returned since its record was put in place, and at most
one is live; at most one has not returned if each is awaited before the next starts.** -/
theorem own_token {w : Site} {s t : Host} {as : List HostAction} (hinit : (fleetHost w).init s)
    (hrun : (fleetHost w).run s as = some t) (hrule : (fleetHost w).Along (InStep w) s as) :
    t.OwnToken ∧ t.OneLive ∧ ((fleetHost w).Along (Awaited w) s as → t.OneRunning) := by
  have hs : s = {} := hinit
  rw [hs] at hrun hrule ⊢
  have hinv : t.Inv w :=
    (fleetHost w).along_invariant (fun _ _ _ hC hI hstep => inv_step hC hI hstep) (inv_empty w) hrun hrule
  refine ⟨hinv.ownToken, hinv.one_live, fun hawaited => ?_⟩
  refine (fleetHost w).along_invariant (fun _ _ _ hC hI hstep => running_step hC hI hstep) ?_ hrun hawaited
  intro i j r r' hi
  cases hi

/-! ### In step and out of it -/

def laptop : Site := ⟨"laptop", fun _ _ => true⟩

def serverOne : ServerConfig := { address := "one:9000", token := "enroll-1", fingerprint := "f1" }

def serverTwo : ServerConfig := { address := "two:9000", token := "enroll-2", fingerprint := "f2" }

/-- The host is enrolled, the supervisor starts a client and the client is given a token. -/
def enrolledRun : List HostAction :=
  [.command (.enroll serverOne), .file 0, .file 0, .file 0, .readServer, .readToken, .ack 0 "tok-1",
    .persist 0 true]

theorem enrolledRun_inStep : (fleetHost laptop).Along (InStep laptop) {} enrolledRun := by
  refine .intro trivial (.intro ?_ (.intro ?_ (.intro ?_ (.intro trivial (.intro ?_ (.intro trivial
    (.intro ?_ trivial)))))))
  · intro sc rest tgt hcommand
    cases hcommand
  · intro sc rest tgt hcommand
    cases hcommand
  · intro sc rest tgt hcommand htgt
    cases hcommand
    exact .inr ⟨rfl, fun r hr => absurd hr List.not_mem_nil⟩
  · intro first tgt token hseen hload
    exact .inl (loadFleetTarget_token hload)
  · intro r token t hget hacked _
    cases hget
    cases hacked
    exact ⟨by decide, by decide⟩

theorem enrolledRun_awaited : (fleetHost laptop).Along (Awaited laptop) {} enrolledRun := by
  refine .intro trivial (.intro trivial (.intro trivial (.intro trivial (.intro trivial (.intro ?_
    (.intro trivial (.intro trivial trivial)))))))
  intro first tgt token hseen hload hother r hr
  exact absurd hr List.not_mem_nil

theorem own_token_enrolled : ∃ s, (fleetHost laptop).run {} enrolledRun = some s ∧
    s.runners.map (fun r => (r.target.address, r.client.metadata)) = [("one:9000", some ("tok-1", ""))] ∧
    s.OwnToken ∧ s.OneLive ∧ s.OneRunning := by
  have h := own_token (w := laptop) rfl rfl enrolledRun_inStep
  exact ⟨_, rfl, by decide, h.1, h.2.1, h.2.2 enrolledRun_awaited⟩

/-- `start` with another server block leaves the token where it is. -/
def staleStart : List HostAction :=
  enrolledRun ++ [.command (.start serverTwo), .file 1, .readServer, .readToken]

/-- The host is enrolled again with the same server before the supervisor looks. -/
def quickEnroll : List HostAction :=
  enrolledRun ++ [.command (.enroll serverOne), .file 1, .file 1, .file 1]

/-- A client saves its token when the host is enrolled elsewhere already. -/
def lateToken : List HostAction :=
  [.command (.enroll serverOne), .file 0, .file 0, .file 0, .readServer, .readToken, .ack 0 "tok-1",
    .command (.enroll serverTwo), .file 1, .file 1, .file 1, .persist 0 true, .readServer, .readToken]

theorem not_ownToken {s : Host} {i : Nat} {r : FleetRunner} {token : String}
    (hget : s.runners[i]? = some r) (hlive : r.live = true)
    (hmeta : r.client.metadata = some (token, "")) (hne : token ≠ "")
    (hforeign : ∀ x ∈ s.issued, x.1 = r.target → x.2.1 = token → ¬ s.enrolled r.target ≤ x.2.2) :
    ¬ s.OwnToken := by
  intro hown
  obtain ⟨t, hmem, hle⟩ := (hown r (List.mem_of_getElem? hget) hlive token "" hmeta).1 hne
  exact hforeign _ hmem rfl rfl hle

/-- A token is presented to a server that did not mint it or that was enrolled anew since, and a
stopped runner is still there when the next one starts. -/
theorem foreign_tokens :
    (∃ s, (fleetHost laptop).run {} staleStart = some s ∧ ¬ s.OwnToken ∧ ¬ s.OneRunning) ∧
    (∃ s, (fleetHost laptop).run {} quickEnroll = some s ∧ ¬ s.OwnToken) ∧
    ∃ s, (fleetHost laptop).run {} lateToken = some s ∧ ¬ s.OwnToken := by
  refine ⟨⟨_, rfl, not_ownToken (i := 1) rfl rfl rfl ?_ ?_, fun h => ?_⟩,
    ⟨_, rfl, not_ownToken (i := 0) rfl rfl rfl ?_ ?_⟩, ⟨_, rfl, not_ownToken (i := 1) rfl rfl rfl ?_ ?_⟩⟩
  · decide
  · decide
  · exact absurd (h 0 1 _ _ rfl rfl rfl rfl) (by decide)
  · decide
  · decide
  · decide
  · decide

end Host
end Marshal.Daemon
