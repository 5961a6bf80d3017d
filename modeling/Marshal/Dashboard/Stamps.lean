import Marshal.Dashboard.Login

/-! Which credential a session stands for.

A session carries the stamp of the record that was there when the login asked for it, and
that need not be the record the password was verified against. As long as it is
(`Steady`), every session belongs to a login of its own credential, and a request that is
accepted was logged in with the credential that is in force. -/
namespace Marshal.Dashboard
open Server

/-- The login created a session of the user and the stamp under the token's hash, and the record
with that stamp is the one its password was verified against. -/
def Login.minted (cr : Crypto) (hash : String → String) (user stamp h : String) (l : Login) : Bool :=
  match l.pc with
  | .created u tok => hash tok == h && l.user == user && u.verifies cr l.pass && u.stamp hash == stamp
  | _ => false

namespace Handler
variable (cr : Crypto) (hash : String → String)

def Belongs (d : Handler) (user stamp h : String) : Prop :=
  ∃ l ∈ d.logins, l.minted cr hash user stamp h = true

/-- A login that takes its stamp finds the record its password was verified against. -/
def Steady (d : Handler) : Act → Prop
  | .loginStep i _ => match d.logins[i]? with
    | some ⟨user, _, .verified u⟩ => (d.auth.stores .server).data.users.get user = some u
    | _ => True
  | _ => True

instance decidableBelongs (d : Handler) (user stamp h : String) : Decidable (d.Belongs cr hash user stamp h) :=
  inferInstanceAs (Decidable (∃ l ∈ d.logins, _))

instance decidableSteady (d : Handler) (a : Act) : Decidable (Steady d a) := by
  unfold Steady
  split
  · split <;> exact inferInstance
  · exact inferInstance

/-- Every session, and every request with one, belongs to a login; and what a login has verified
and taken fits together. -/
structure Owned (d : Handler) : Prop where
  verified : ∀ l ∈ d.logins, ∀ u, l.pc = .verified u → u.verifies cr l.pass = true
  stamped : ∀ l ∈ d.logins, ∀ u stamp, l.pc = .stamped u stamp →
    u.verifies cr l.pass = true ∧ u.stamp hash = stamp
  sessions : ∀ h sess, d.sessions.store.m.get h = some sess → d.Belongs cr hash sess.user sess.stamp h
  requests : ∀ r ∈ d.requests, ∀ user stamp, r.pc = .comparing user stamp ∨ r.pc = .accepted user stamp →
    d.Belongs cr hash user stamp (hash r.tok)


end Handler

variable {cr : Crypto} {hash : String → String} {d e : Handler}

/-! ### What a session stands for stays -/

/-- A login that has created its session stands as it is. -/
theorem mem_set_of_minted {i : Nat} {l l' : Login} {user stamp h : String} {logins : List Login}
    (hget : logins[i]? = some l) (hopen : ∀ u tok, l.pc ≠ .created u tok) {m : Login}
    (hm : m ∈ logins) (hminted : m.minted cr hash user stamp h = true) : m ∈ logins.set i l' := by
  obtain ⟨k, hk⟩ := List.mem_iff_getElem?.mp hm
  have hne : k ≠ i := by
    rintro rfl
    obtain rfl : l = m := Option.some.inj (hget.symm.trans hk)
    unfold Login.minted at hminted
    split at hminted
    · rename_i u tok hpc
      exact hopen u tok hpc
    · cases hminted
  refine List.mem_iff_getElem?.mpr ⟨k, ?_⟩
  rw [List.getElem?_set_ne (Ne.symm hne)]
  exact hk

theorem belongs_set {i : Nat} {l l' : Login} {user stamp h : String} (hget : d.logins[i]? = some l)
    (hopen : ∀ u tok, l.pc ≠ .created u tok) (hlogins : e.logins = d.logins.set i l')
    (hb : d.Belongs cr hash user stamp h) : e.Belongs cr hash user stamp h := by
  obtain ⟨m, hm, hminted⟩ := hb
  exact ⟨m, hlogins ▸ mem_set_of_minted hget hopen hm hminted, hminted⟩

theorem belongs_mono {user stamp h : String} (hlogins : ∀ l ∈ d.logins, l ∈ e.logins)
    (hb : d.Belongs cr hash user stamp h) : e.Belongs cr hash user stamp h := by
  obtain ⟨m, hm, hminted⟩ := hb
  exact ⟨m, hlogins m hm, hminted⟩

/-! ### Sessions only go, but for a creation -/

theorem get_delete {store : SessionStore} {tok h : String} {sess : Session}
    (hget : (store.delete hash tok).m.get h = some sess) : store.m.get h = some sess := by
  rw [SessionStore.delete, SessionStore.persistLocked_m, Table.get_del] at hget
  split at hget
  · cases hget
  · exact hget

theorem get_validate {store : SessionStore} {now : Int} {tok h : String} {sess : Session}
    (hget : (store.validate hash now tok).1.m.get h = some sess) : store.m.get h = some sess := by
  rcases SessionStore.validate_cases store now tok with hsame | ⟨hdel, -⟩
  · rwa [hsame] at hget
  · rw [hdel] at hget
    exact get_delete hget

theorem get_sweep {store : SessionStore} {now : Int} {h : String} {sess : Session}
    (hget : (store.sweep now).m.get h = some sess) : store.m.get h = some sess := by
  rw [SessionStore.sweep_m, Expiring.get_purge, Expiring.look, Option.filter_eq_some_iff] at hget
  exact hget.1

theorem get_create {store : SessionStore} {now : Int} {user stamp tok h : String} {sess : Session}
    (hget : (store.create hash now user stamp tok).m.get h = some sess) :
    store.m.get h = some sess ∨ h = hash tok ∧ sess.user = user ∧ sess.stamp = stamp := by
  rw [SessionStore.create, SessionStore.persistLocked_m, Table.get_set] at hget
  split at hget
  · rename_i heq
    cases hget
    exact .inr ⟨heq, rfl, rfl⟩
  · exact .inl hget

namespace Handler

/-- Logins and requests stay as they are. -/
theorem Owned.same (hd : d.Owned cr hash) (hlogins : e.logins = d.logins) (hrequests : e.requests = d.requests)
    (hstore : ∀ h sess, e.sessions.store.m.get h = some sess → d.sessions.store.m.get h = some sess) :
    e.Owned cr hash := by
  have hb : ∀ {user stamp h}, d.Belongs cr hash user stamp h → e.Belongs cr hash user stamp h :=
    fun hb => belongs_mono (fun l hl => hlogins ▸ hl) hb
  refine ⟨hlogins ▸ hd.verified, hlogins ▸ hd.stamped, ?_, ?_⟩
  · intro h sess hget
    exact hb (hd.sessions h sess (hstore h sess hget))
  · rw [hrequests]
    intro r hr user stamp hpc
    exact hb (hd.requests r hr user stamp hpc)

theorem owned_login (hd : d.Owned cr hash) (user pass : String) :
    Owned cr hash { d with logins := d.logins ++ [⟨user, pass, .asking⟩] } := by
  have hb : ∀ {user' stamp h}, d.Belongs cr hash user' stamp h →
      Belongs cr hash { d with logins := d.logins ++ [⟨user, pass, .asking⟩] } user' stamp h :=
    fun hb => belongs_mono (fun l hl => List.mem_append_left _ hl) hb
  refine ⟨?_, ?_, ?_, ?_⟩
  · intro l hl u hpc
    rcases List.mem_append.mp hl with hl | hl
    · exact hd.verified l hl u hpc
    · rw [List.mem_singleton.mp hl] at hpc
      cases hpc
  · intro l hl u stamp hpc
    rcases List.mem_append.mp hl with hl | hl
    · exact hd.stamped l hl u stamp hpc
    · rw [List.mem_singleton.mp hl] at hpc
      cases hpc
  · exact fun h sess hget => hb (hd.sessions h sess hget)
  · exact fun r hr user stamp hpc => hb (hd.requests r hr user stamp hpc)

/-- A login's step, given what it leaves of the login and the store. -/
theorem owned_put (hd : d.Owned cr hash) {i : Nat} {l : Login} {pc : LoginPc} {store : SessionStore}
    (hget : d.logins[i]? = some l) (hopen : ∀ u tok, l.pc ≠ .created u tok)
    (hverified : ∀ u, pc = .verified u → u.verifies cr l.pass = true)
    (hstamped : ∀ u stamp, pc = .stamped u stamp → u.verifies cr l.pass = true ∧ u.stamp hash = stamp)
    (hstore : ∀ h sess, store.m.get h = some sess → d.sessions.store.m.get h = some sess ∨
      Login.minted cr hash sess.user sess.stamp h { l with pc := pc } = true) :
    Owned cr hash { d.withStore store with logins := d.logins.set i { l with pc := pc } } := by
  have hlt : i < d.logins.length := (List.getElem?_eq_some_iff.mp hget).1
  have hb : ∀ {user stamp h}, d.Belongs cr hash user stamp h →
      Belongs cr hash { d.withStore store with logins := d.logins.set i { l with pc := pc } } user stamp h :=
    fun hb => belongs_set hget hopen rfl hb
  refine ⟨?_, ?_, ?_, ?_⟩
  · intro m hm u hpc
    rcases List.mem_or_eq_of_mem_set hm with hm | rfl
    · exact hd.verified m hm u hpc
    · exact hverified u hpc
  · intro m hm u stamp hpc
    rcases List.mem_or_eq_of_mem_set hm with hm | rfl
    · exact hd.stamped m hm u stamp hpc
    · exact hstamped u stamp hpc
  · intro h sess hsess
    rcases hstore h sess hsess with hold | hminted
    · exact hb (hd.sessions h sess hold)
    · exact ⟨_, List.mem_set hlt _, hminted⟩
  · exact fun r hr user stamp hpc => hb (hd.requests r hr user stamp hpc)

/-- A request's step, given what it leaves of the request and the store. -/
theorem owned_require (hd : d.Owned cr hash) {i : Nat} {r : Request} {pc : RequestPc} {store : SessionStore}
    (hpc : ∀ user stamp, pc = .comparing user stamp ∨ pc = .accepted user stamp →
      d.Belongs cr hash user stamp (hash r.tok))
    (hstore : ∀ h sess, store.m.get h = some sess → d.sessions.store.m.get h = some sess) :
    Owned cr hash { d.withStore store with requests := d.requests.set i { r with pc := pc } } := by
  refine ⟨hd.verified, hd.stamped, ?_, ?_⟩
  · exact fun h sess hget => hd.sessions h sess (hstore h sess hget)
  · intro r' hr' user stamp hpc'
    rcases List.mem_or_eq_of_mem_set hr' with hr' | rfl
    · exact hd.requests r' hr' user stamp hpc'
    · exact hpc user stamp hpc'

theorem readable_eq {data : AuthData} (h : d.readable = some data) :
    data = (d.auth.stores .server).data := by
  unfold readable at h
  split at h
  · exact (Option.some.inj h).symm
  · cases h

theorem owned_loginStep {i : Nat} {tok : Option String} (hd : d.Owned cr hash)
    (hsteady : Steady d (.loginStep i tok)) (h : d.step cr hash (.loginStep i tok) = some e) :
    e.Owned cr hash := by
  simp only [step, Option.bind_eq_bind, Option.bind_eq_some_iff, Option.pure_def, Option.some.injEq,
    Prod.exists] at h
  obtain ⟨l, hget, store, pc, hadv, rfl⟩ := h
  have hmem : l ∈ d.logins := List.mem_of_getElem? hget
  obtain ⟨user, pass, at_⟩ := l
  cases at_ with
  | asking =>
    simp only [advance, Option.map_eq_some_iff] at hadv
    obtain ⟨data, -, hread⟩ := hadv
    split at hread <;> cases hread <;>
      exact owned_put hd hget (by simp) (by simp) (by simp) (fun _ _ hold => .inl hold)
  | hashing u =>
    simp only [advance, Option.some.injEq, Prod.mk.injEq] at hadv
    obtain ⟨rfl, rfl⟩ := hadv
    refine owned_put hd hget (by simp) ?_ ?_ (fun _ _ hold => .inl hold)
    · intro u' hu'
      split at hu'
      · rename_i hverifies
        cases hu'
        exact hverifies
      · cases hu'
    · intro u' stamp hu'
      split at hu' <;> cases hu'
  | verified u =>
    simp only [advance, Option.map_eq_some_iff, Prod.mk.injEq] at hadv
    obtain ⟨data, hread, rfl, rfl⟩ := hadv
    simp only [Steady, hget] at hsteady
    refine owned_put hd hget (by simp) (by simp) ?_ (fun _ _ hold => .inl hold)
    intro u' stamp hu'
    cases hu'
    refine ⟨hd.verified _ hmem u rfl, ?_⟩
    rw [readable_eq hread, AuthData.DashboardCredentialStamp, hsteady]
    rfl
  | stamped u stamp =>
    obtain ⟨hverifies, hstamp⟩ := hd.stamped _ hmem u stamp rfl
    cases tok with
    | none =>
      cases hadv
      exact owned_put hd hget (by simp) (by simp) (by simp) (fun _ _ hold => .inl hold)
    | some tok =>
      cases hadv
      refine owned_put hd hget (by simp) (by simp) (by simp) ?_
      intro h sess hsess
      rcases get_create hsess with hold | ⟨rfl, huser, hsstamp⟩
      · exact .inl hold
      · refine .inr ?_
        simp only [Login.minted, huser, hsstamp, hstamp, hverifies, beq_self_eq_true, Bool.and_self]
  | created | failed => cases hadv

theorem owned_requestStep {i : Nat} (hd : d.Owned cr hash)
    (h : d.step cr hash (.requestStep i) = some e) : e.Owned cr hash := by
  simp only [step, Option.bind_eq_bind, Option.bind_eq_some_iff, Option.pure_def, Option.some.injEq,
    Prod.exists] at h
  obtain ⟨r, hget, store, pc, hreq, rfl⟩ := h
  have hmem : r ∈ d.requests := List.mem_of_getElem? hget
  obtain ⟨tok, at_⟩ := r
  cases at_ with
  | validating =>
    simp only [require, Option.some.injEq, Prod.mk.injEq] at hreq
    obtain ⟨rfl, rfl⟩ := hreq
    refine owned_require hd ?_ (fun _ _ hold => get_validate hold)
    intro user stamp hpc
    have hanswer : (d.sessions.store.validate hash d.sessions.now tok).2 = some (user, stamp) := by
      split at hpc
      · simp at hpc
      · rename_i user' stamp' heq
        simp only [RequestPc.comparing.injEq, reduceCtorEq, or_false] at hpc
        rw [heq, hpc.1, hpc.2]
    rw [SessionStore.validate_answer, Option.map_eq_some_iff] at hanswer
    obtain ⟨sess, hshown, heq⟩ := hanswer
    cases heq
    exact hd.sessions _ sess (Option.filter_eq_some_iff.mp hshown).1
  | comparing user stamp =>
    simp only [require, Option.map_eq_some_iff, Prod.mk.injEq] at hreq
    obtain ⟨data, -, rfl, rfl⟩ := hreq
    refine owned_require hd ?_ (fun _ _ hold => hold)
    intro user' stamp' hpc
    split at hpc
    · simp only [reduceCtorEq, RequestPc.accepted.injEq, false_or] at hpc
      obtain ⟨rfl, rfl⟩ := hpc
      exact hd.requests _ hmem user stamp (.inl rfl)
    · simp at hpc
  | stale =>
    cases hreq
    exact owned_require hd (by simp) (fun _ _ hold => get_delete hold)
  | accepted | rejected => cases hreq

theorem owned_step {a : Act} (hd : d.Owned cr hash) (hsteady : Steady d a)
    (h : d.step cr hash a = some e) : e.Owned cr hash := by
  cases a with
  | auth a =>
    simp only [step, Option.map_eq_some_iff] at h
    obtain ⟨auth, -, rfl⟩ := h
    exact hd.same rfl rfl fun _ _ hold => hold
  | login user pass =>
    cases h
    exact owned_login hd user pass
  | loginStep i tok => exact owned_loginStep hd hsteady h
  | request tok =>
    cases h
    refine ⟨hd.verified, hd.stamped, hd.sessions, ?_⟩
    intro r hr user stamp hpc
    rcases List.mem_append.mp hr with hr | hr
    · exact hd.requests r hr user stamp hpc
    · rw [List.mem_singleton.mp hr] at hpc
      simp at hpc
  | requestStep i => exact owned_requestStep hd h
  | logout tok =>
    cases h
    exact hd.same rfl rfl fun _ _ hold => get_delete hold
  | sweep =>
    cases h
    exact hd.same rfl rfl fun _ _ hold => get_sweep hold
  | tick n =>
    cases h
    exact hd.same rfl rfl fun _ _ hold => hold

theorem owned_init (h : (machine cr hash).init d) : d.Owned cr hash := by
  obtain ⟨-, hm, hlogins, hrequests⟩ := h
  refine ⟨?_, ?_, ?_, ?_⟩ <;> simp [hm, hlogins, hrequests]

/-! ### The result -/

theorem owned_run {as : List Act} (hs : (machine cr hash).init d)
    (hrun : (machine cr hash).run d as = some e) (hsteady : (machine cr hash).Along Steady d as) :
    e.Owned cr hash :=
  (machine cr hash).along_invariant (fun _ _ _ hC hI h => owned_step hI hC h) (owned_init hs) hrun hsteady

/-- A key is the password and the salt. -/
def concat : Crypto where
  hashToken tok := tok
  key password salt _ _ := some (password.toList.map (fun c => c.toNat.toUInt8) ++ salt)
  encode bytes := String.ofList (bytes.map fun b => Char.ofNat b.toNat)
  decode s := some (s.toList.map fun c => c.toNat.toUInt8)

def hired : Handler where
  auth := { file := ⟨some { users := (∅ : Table _ _).set "admin" ⟨"old1", "1", 600000⟩ }, 1⟩ }
  sessions := Sessions.dayLong

def started : List Act := [.auth (.load .server), .auth (.stat .server true), .login "admin" "old"]

/-- `SetDashboardUser` on the server, to its end. -/
def changes : List Act :=
  [.auth (.call .server (.setDashboardUser "admin" "new" (some [50]))), .auth (.write .server 2),
    .auth (.rename .server), .auth (.stat .server true)]

/-- The login takes its stamp and creates the session, and a request comes with it. -/
def used : List Act :=
  [.loginStep 0 none, .loginStep 0 (some "token"), .request "token", .requestStep 0, .requestStep 0]

def overtaken : List Act := started ++ [.loginStep 0 none, .loginStep 0 none] ++ changes ++ used

end Handler
end Marshal.Dashboard
