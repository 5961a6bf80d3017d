import Marshal.Lib.Expiring
import Marshal.Lib.System

/-! The dashboard's session store.

A session is kept under the hash of its token, in memory and, when the store has a path,
in a file that every change is written back to. The file holds the map as it was at the
last change; a restart reads it and leaves the expired sessions out. I/O succeeds here,
and what is read is what was written. -/
namespace Marshal.Dashboard

structure Session where
  user : String
  stamp : String
  expiry : Int
  deriving DecidableEq, Repr

structure SessionStore where
  ttl : Int
  /-- Empty: nothing is written. -/
  path : String
  m : Table String Session := ∅
  file : Option (Table String Session) := none

namespace SessionStore
variable (hash : String → String)

def persistLocked (s : SessionStore) : SessionStore :=
  if s.path = "" then s else { s with file := some s.m }

def create (s : SessionStore) (now : Int) (user stamp tok : String) : SessionStore :=
  persistLocked { s with m := s.m.set (hash tok) ⟨user, stamp, now + s.ttl⟩ }

def delete (s : SessionStore) (tok : String) : SessionStore :=
  persistLocked { s with m := s.m.del (hash tok) }

/-- The store afterwards, and the user and stamp of a live token. -/
def validate (s : SessionStore) (now : Int) (tok : String) : SessionStore × Option (String × String) :=
  match s.m.get (hash tok) with
  | none => (s, none)
  | some sess =>
    if now < sess.expiry then (s, some (sess.user, sess.stamp)) else (s.delete hash tok, none)

def sweep (s : SessionStore) (now : Int) : SessionStore :=
  let swept := { s with m := Expiring.purge Session.expiry s.m now }
  if s.m.toList.any fun e => !Expiring.live Session.expiry now e.2 then swept.persistLocked else swept

/-- `newSessionStore` at the store's path: what the file holds that has not expired. -/
def restart (s : SessionStore) (now : Int) : SessionStore :=
  if s.path = "" then { s with m := ∅ }
  else { s with m := Expiring.purge Session.expiry (s.file.getD ∅) now }

end SessionStore

/-! ### Histories -/

structure Sessions where
  store : SessionStore
  now : Int := 0

inductive SessionCall where
  /-- With the token drawn, if there is one. -/
  | create (user stamp : String) (tok : Option String)
  | validate (tok : String)
  | delete (tok : String)
  | sweep
  | restart
  | tick (d : Nat)
  deriving DecidableEq, Repr

namespace Sessions
variable (hash : String → String)

def step (s : Sessions) : SessionCall → Sessions
  | .create user stamp (some tok) => { s with store := s.store.create hash s.now user stamp tok }
  | .create _ _ none => s
  | .validate tok => { s with store := (s.store.validate hash s.now tok).1 }
  | .delete tok => { s with store := s.store.delete hash tok }
  | .sweep => { s with store := s.store.sweep s.now }
  | .restart => { s with store := s.store.restart s.now }
  | .tick d => { s with now := s.now + d }

/-- The histories of a new store without a file. -/
def machine : Transition.System Sessions SessionCall where
  init s := s.store.m = ∅ ∧ s.store.file = none
  step s c := some (s.step hash c)

/-- The session a token was returned for and that has not been deleted since. -/
def issued (tok : String) (last : Option Session) (s : Sessions) : SessionCall → Option Session
  | .create user stamp (some tok') =>
    if tok' = tok then some ⟨user, stamp, s.now + s.store.ttl⟩ else last
  | .delete tok' => if tok' = tok then none else last
  | _ => last

end Sessions

/-- The token a call is about. -/
def SessionCall.token : SessionCall → Option String
  | .create _ _ tok => tok
  | .validate tok | .delete tok => some tok
  | .sweep | .restart | .tick _ => none

namespace SessionStore
variable {hash : String → String} {s : SessionStore} {now now' : Int} {tok h : String}

/-! ### Memory and file -/

/-- What the file holds. -/
def saved (s : SessionStore) : Table String Session := s.file.getD ∅

/-- A key of the memory or of the file. -/
def Keyed (s : SessionStore) (h : String) : Prop := (s.m.get h).isSome ∨ (s.saved.get h).isSome

/-- The file shows what the memory shows. -/
def Synced (s : SessionStore) (now : Int) : Prop :=
  s.path ≠ "" ∧ Expiring.Agree Session.expiry s.saved s.m now

/-- What is in the store at a time, for a hash. -/
def shows (s : SessionStore) (now : Int) (h : String) : Option Session :=
  Expiring.look Session.expiry s.m now h

@[simp] theorem persistLocked_m (s : SessionStore) : s.persistLocked.m = s.m := by
  unfold persistLocked
  split <;> rfl

@[simp] theorem persistLocked_path (s : SessionStore) : s.persistLocked.path = s.path := by
  unfold persistLocked
  split <;> rfl

@[simp] theorem persistLocked_ttl (s : SessionStore) : s.persistLocked.ttl = s.ttl := by
  unfold persistLocked
  split <;> rfl

theorem saved_persistLocked (hpath : s.path ≠ "") : s.persistLocked.saved = s.m := by
  rw [persistLocked, if_neg hpath]
  rfl

/-- A change is written back. -/
theorem synced_change (hpath : s.path ≠ "") (m : Table String Session) (now : Int) :
    ({ s with m := m } : SessionStore).persistLocked.Synced now := by
  refine ⟨(persistLocked_path _).symm ▸ hpath, fun k => ?_⟩
  rw [saved_persistLocked (s := { s with m := m }) hpath, persistLocked_m]

theorem Synced.later (h : s.Synced now) (hle : now ≤ now') : s.Synced now' := ⟨h.1, h.2.later hle⟩

/-- Only a dead session goes when a token is validated. -/
theorem validate_cases (s : SessionStore) (now : Int) (tok : String) :
    (s.validate hash now tok).1 = s ∨
      ((s.validate hash now tok).1 = s.delete hash tok ∧ s.shows now (hash tok) = none) := by
  unfold validate
  cases hget : s.m.get (hash tok) with
  | none => exact .inl rfl
  | some sess =>
    by_cases hlive : now < sess.expiry
    · exact .inl (by simp [hlive])
    · refine .inr ⟨by simp [hlive], ?_⟩
      simp [shows, Expiring.look, Expiring.live, hget, Option.filter_some, hlive]

/-- A token is answered by what the store shows. -/
theorem validate_answer (s : SessionStore) (now : Int) (tok : String) :
    (s.validate hash now tok).2 = (s.shows now (hash tok)).map fun sess => (sess.user, sess.stamp) := by
  unfold validate shows Expiring.look Expiring.live
  cases hget : s.m.get (hash tok) with
  | none => rfl
  | some sess => by_cases hlive : now < sess.expiry <;> simp [Option.filter_some, hlive]

theorem synced_create (h : s.Synced now) (user stamp tok : String) :
    (s.create hash now user stamp tok).Synced now := synced_change h.1 _ now

theorem synced_delete (h : s.Synced now) (tok : String) : (s.delete hash tok).Synced now :=
  synced_change h.1 _ now

theorem synced_sweep (h : s.Synced now) : (s.sweep now).Synced now := by
  unfold sweep
  dsimp only
  split
  · exact synced_change h.1 _ now
  · refine ⟨h.1, ?_⟩
    intro k
    exact (h.2 k).trans (Expiring.agree_purge s.m now k).symm

theorem synced_restart (h : s.Synced now) : (s.restart now).Synced now := by
  rw [restart, if_neg h.1]
  exact ⟨h.1, fun k => (Expiring.agree_purge s.saved now k).symm⟩

/-! ### What is shown after a call -/

theorem shows_create (s : SessionStore) (now : Int) (user stamp tok h : String) :
    (s.create hash now user stamp tok).shows now h =
      if h = hash tok then (some ⟨user, stamp, now + s.ttl⟩).filter (Expiring.live Session.expiry now)
      else s.shows now h := by
  unfold shows create
  rw [persistLocked_m, Expiring.look_set]

theorem shows_delete (s : SessionStore) (now : Int) (tok h : String) :
    (s.delete hash tok).shows now h = if h = hash tok then none else s.shows now h := by
  unfold shows delete
  rw [persistLocked_m, Expiring.look_del]

theorem sweep_m (s : SessionStore) (now : Int) : (s.sweep now).m = Expiring.purge Session.expiry s.m now := by
  unfold sweep
  dsimp only
  split <;> simp

theorem shows_sweep (s : SessionStore) (now : Int) (h : String) :
    (s.sweep now).shows now h = s.shows now h := by
  unfold shows
  rw [sweep_m]
  exact Expiring.agree_purge s.m now h

theorem shows_restart (hs : s.Synced now) (h : String) : (s.restart now).shows now h = s.shows now h := by
  rw [restart, if_neg hs.1]
  exact (Expiring.agree_purge s.saved now h).trans (hs.2 h)

end SessionStore

namespace Sessions
variable {hash : String → String} {s t : Sessions} {tok : String}

/-- The store shows the session that is on record for the token, as long as it lives. -/
structure Tracks (hash : String → String) (tok : String) (last : Option Session) (s : Sessions) : Prop where
  synced : s.store.Synced s.now
  shown : s.store.shows s.now (hash tok) = last.filter (Expiring.live Session.expiry s.now)

/-- Among the tokens of a history only `tok` itself has its hash. -/
def Distinct (hash : String → String) (tok : String) (c : SessionCall) : Prop :=
  ∀ tok', c.token = some tok' → hash tok' = hash tok → tok' = tok

theorem hash_eq_iff {c : SessionCall} (hdistinct : Distinct hash tok c) {tok' : String}
    (hc : c.token = some tok') : hash tok = hash tok' ↔ tok' = tok := by
  constructor
  · exact fun heq => hdistinct tok' hc heq.symm
  · rintro rfl
    rfl

theorem tracks_step {last : Option Session} (h : Tracks hash tok last s) {c : SessionCall}
    (hdistinct : Distinct hash tok c) : Tracks hash tok (issued tok last s c) (s.step hash c) := by
  cases c with
  | create user stamp fresh =>
    cases fresh with
    | none => exact h
    | some tok' =>
      refine ⟨SessionStore.synced_create h.synced user stamp tok', ?_⟩
      show (s.store.create hash s.now user stamp tok').shows s.now (hash tok) = _
      simp only [SessionStore.shows_create, hash_eq_iff hdistinct rfl, issued]
      split
      · rfl
      · exact h.shown
  | validate tok' =>
    rcases SessionStore.validate_cases s.store s.now tok' with hsame | ⟨hdel, hnone⟩
    · refine ⟨?_, ?_⟩
      · show (s.store.validate hash s.now tok').1.Synced s.now
        rw [hsame]
        exact h.synced
      · show (s.store.validate hash s.now tok').1.shows s.now (hash tok) = _
        rw [hsame]
        exact h.shown
    · refine ⟨?_, ?_⟩
      · show (s.store.validate hash s.now tok').1.Synced s.now
        rw [hdel]
        exact SessionStore.synced_delete h.synced tok'
      · show (s.store.validate hash s.now tok').1.shows s.now (hash tok) = _
        rw [hdel, SessionStore.shows_delete]
        split
        · rename_i heq
          exact hnone.symm.trans ((congrArg _ heq.symm).trans h.shown)
        · exact h.shown
  | delete tok' =>
    refine ⟨SessionStore.synced_delete h.synced tok', ?_⟩
    show (s.store.delete hash tok').shows s.now (hash tok) = _
    simp only [SessionStore.shows_delete, hash_eq_iff hdistinct rfl, issued]
    split
    · rfl
    · exact h.shown
  | sweep =>
    refine ⟨SessionStore.synced_sweep h.synced, ?_⟩
    exact (SessionStore.shows_sweep s.store s.now _).trans h.shown
  | restart =>
    refine ⟨SessionStore.synced_restart h.synced, ?_⟩
    exact (SessionStore.shows_restart h.synced _).trans h.shown
  | tick d =>
    have hle : s.now ≤ s.now + d := by omega
    refine ⟨h.synced.later hle, ?_⟩
    show s.store.shows (s.now + d) (hash tok) = last.filter _
    calc s.store.shows (s.now + d) (hash tok)
        = (s.store.shows s.now (hash tok)).filter (Expiring.live Session.expiry (s.now + d)) :=
          (Expiring.filter_later hle _).symm
      _ = (last.filter (Expiring.live Session.expiry s.now)).filter
            (Expiring.live Session.expiry (s.now + d)) := by rw [h.shown]
      _ = last.filter (Expiring.live Session.expiry (s.now + d)) := Expiring.filter_later hle last

/-- The tokens that were returned. -/
def returned : SessionCall → Option String
  | .create _ _ tok => tok
  | _ => none

/-- A change adds no key to memory or file but what it puts into memory. -/
theorem keyed_change {store : SessionStore} {m : Table String Session} {h : String}
    (hkey : ({ store with m := m } : SessionStore).persistLocked.Keyed h) :
    (m.get h).isSome ∨ store.Keyed h := by
  unfold SessionStore.Keyed SessionStore.persistLocked SessionStore.saved at *
  split at hkey
  · rcases hkey with hm | hfile
    · exact .inl hm
    · exact .inr (.inr hfile)
  · rcases hkey with hm | hm <;> exact .inl hm

theorem keyed_of_purge {t : Table String Session} {now : Int} {h : String}
    (hkey : ((Expiring.purge Session.expiry t now).get h).isSome) : (t.get h).isSome := by
  rw [Expiring.get_purge, Expiring.look] at hkey
  cases hget : t.get h with
  | none => simp [hget] at hkey
  | some sess => rfl

theorem keyed_delete {store : SessionStore} {tok' h : String} (hkey : (store.delete hash tok').Keyed h) :
    store.Keyed h := by
  rcases keyed_change hkey with hm | hold
  · rw [Table.get_del] at hm
    split at hm
    · cases hm
    · exact .inl hm
  · exact hold

/-- A key in memory or file was there before the call, or is the hash of the token it returned. -/
theorem keyed_step (s : Sessions) (c : SessionCall) {h : String} (hkey : (s.step hash c).store.Keyed h) :
    s.store.Keyed h ∨ ∃ tok, returned c = some tok ∧ h = hash tok := by
  cases c with
  | create user stamp fresh =>
    cases fresh with
    | none => exact .inl hkey
    | some tok =>
      rcases keyed_change hkey with hm | hold
      · rw [Table.get_set] at hm
        split at hm
        · rename_i heq
          exact .inr ⟨tok, rfl, heq⟩
        · exact .inl (.inl hm)
      · exact .inl hold
  | validate tok =>
    refine .inl ?_
    have hkey' : (s.store.validate hash s.now tok).1.Keyed h := hkey
    rcases SessionStore.validate_cases s.store s.now tok with hsame | ⟨hdel, -⟩
    · exact hsame ▸ hkey'
    · exact keyed_delete (hdel ▸ hkey')
  | delete tok => exact .inl (keyed_delete hkey)
  | sweep =>
    refine .inl ?_
    have hkey' : (s.store.sweep s.now).Keyed h := hkey
    unfold SessionStore.sweep at hkey'
    dsimp only at hkey'
    split at hkey'
    · rcases keyed_change hkey' with hm | hold
      · exact .inl (keyed_of_purge hm)
      · exact hold
    · rcases hkey' with hm | hfile
      · exact .inl (keyed_of_purge hm)
      · exact .inr hfile
  | restart =>
    refine .inl ?_
    have hkey' : (s.store.restart s.now).Keyed h := hkey
    unfold SessionStore.restart at hkey'
    split at hkey'
    · rcases hkey' with hm | hfile
      · cases hm
      · exact .inr hfile
    · rcases hkey' with hm | hfile
      · exact .inr (keyed_of_purge hm)
      · exact .inr hfile
  | tick d => exact .inl hkey

/-! ### The result -/

/-- **A token is valid from its creation until its deletion or expiry, restarts or not.** In every
history of a store with a path: a token, none of whose fellows in the history has its hash, is
answered with the user and stamp it was created for exactly if it was created, not deleted since,
and the clock is before its expiry; and the file's keys are hashes of tokens that were returned. -/
theorem validate_history {calls : List SessionCall} (hs : (machine hash).init s)
    (hpath : s.store.path ≠ "") (hrun : (machine hash).run s calls = some t) :
    (∀ tok, (∀ c ∈ calls, Distinct hash tok c) →
      (t.store.validate hash t.now tok).2 =
        (((machine hash).record (issued tok) none s calls).filter
          (Expiring.live Session.expiry t.now)).map fun sess => (sess.user, sess.stamp)) ∧
    ∀ h, (t.store.saved.get h).isSome → ∃ tok ∈ calls.filterMap returned, h = hash tok := by
  refine ⟨?_, ?_⟩
  · intro tok hdistinct
    have hinit : Tracks hash tok none s := by
      refine ⟨⟨hpath, fun k => ?_⟩, ?_⟩
      · rw [SessionStore.saved, hs.1, hs.2]
        rfl
      · show Expiring.look Session.expiry s.store.m s.now (hash tok) = none
        rw [hs.1]
        rfl
    have htracks := (machine hash).record_along (issued tok) (I := Tracks hash tok)
      (C := fun _ c => Distinct hash tok c) ?_ hinit hrun
      ((machine hash).along_of_mem (fun _ c hc => hdistinct c hc) s)
    · rw [SessionStore.validate_answer, htracks.shown]
    · intro last u c v hC hI hstep
      obtain rfl : u.step hash c = v := Option.some.inj hstep
      exact tracks_step hI hC
  · have hkeys : ∀ h, t.store.Keyed h → ∃ tok ∈ calls.filterMap returned, h = hash tok := by
      apply (machine hash).run_history
        (I := fun cs u => ∀ h, u.store.Keyed h → ∃ tok ∈ cs.filterMap returned, h = hash tok) ?_ ?_ hrun
      · intro h hkey
        simp [SessionStore.Keyed, SessionStore.saved, hs.1, hs.2] at hkey
      · intro cs u c v _ hI hstep h hkey
        obtain rfl : u.step hash c = v := Option.some.inj hstep
        rw [List.filterMap_append]
        rcases keyed_step u c hkey with hold | ⟨tok, htok, heq⟩
        · obtain ⟨tok, hmem, heq⟩ := hI h hold
          exact ⟨tok, List.mem_append_left _ hmem, heq⟩
        · exact ⟨tok, List.mem_append_right _ (by simp [htok]), heq⟩
    exact fun h hfile => hkeys h (.inr hfile)

/-- A store with a lifetime of one day. -/
def dayLong : Sessions := ⟨⟨86400000000000, "sessions.json", ∅, none⟩, 0⟩

theorem validate_history_restart :
    ∃ t, (machine id).run dayLong [.create "admin" "stamp" (some "token"), .restart] = some t ∧
      (t.store.validate id t.now "token").2 = some ("admin", "stamp") := by
  refine ⟨_, rfl, ?_⟩
  rw [(@validate_history id dayLong _ [.create "admin" "stamp" (some "token"), .restart] ⟨rfl, rfl⟩
    (by decide) rfl).1 "token" (fun _ _ _ _ heq => heq)]
  decide

end Sessions
end Marshal.Dashboard
