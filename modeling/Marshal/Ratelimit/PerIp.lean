import Marshal.Ratelimit.Requests

/-! The per-IP bucket of a login.

The failures of one source address are counted under a key of its own, beside a key for the user at
that address. Both kinds of keys are strings of one limiter. As long as no user's key is the address's
(`ApartFrom`), its bucket is what its own failures make of an empty one (`ip_bucket_counts`); the user
`ip` has the per-IP key of his address. -/
namespace Marshal.Ratelimit

/-- The key of the per-IP bucket. -/
def ipKey (ip : String) : String := "ip|" ++ ip

/-- The key of the per-user bucket. -/
def userKey (user ip : String) : String := user ++ "|" ++ ip

theorem ipKey_inj {ip ip' : String} : ipKey ip = ipKey ip' ↔ ip = ip' := by
  simp only [ipKey, ← String.toList_inj, String.toList_append, List.append_cancel_left_eq]

/-- A user's key is some address's only if the user is called `ip` or something that begins with `ip|`. -/
theorem userKey_apart_iff (user ip : String) :
    (∀ a, userKey user ip ≠ ipKey a) ↔ user ≠ "ip" ∧ ¬ "ip|".toList <+: user.toList := by
  have hkey : ∀ a, userKey user ip = ipKey a ↔ user.toList ++ '|' :: ip.toList = 'i' :: 'p' :: '|' :: a.toList := by
    intro a
    simp [userKey, ipKey, ← String.toList_inj]
  constructor
  · intro h
    refine ⟨fun huser => h ip (by rw [huser]; rfl), fun hstart => ?_⟩
    obtain ⟨rest, hrest⟩ := hstart
    refine h (String.ofList (rest ++ '|' :: ip.toList)) ((hkey _).mpr ?_)
    rw [← hrest]
    simp
  · intro h a heq
    obtain ⟨hname, hstart⟩ := h
    rw [hkey] at heq
    rcases huser : user.toList with _ | ⟨c, _ | ⟨d, _ | ⟨e, rest⟩⟩⟩
    · simp [huser] at heq
    · simp [huser] at heq
    · rw [huser] at heq
      simp only [List.cons_append, List.nil_append, List.cons.injEq, true_and] at heq
      refine hname (String.toList_inj.mp ?_)
      rw [huser, heq.1, heq.2.1]
      rfl
    · rw [huser] at heq
      simp only [List.cons_append, List.cons.injEq] at heq
      refine hstart ⟨rest, ?_⟩
      rw [huser, heq.1, heq.2.1, heq.2.2.1]
      rfl

/-! ### A bucket of its own -/

/-- What failures at these times make of an empty bucket. -/
def replay (pol : Policy) (told : List Nat) : Option Entry :=
  told.foldl (fun bucket now => some (pol.fail now ((bucket.filter fun e => !pol.drops now e).getD {}))) none

theorem replay_concat (pol : Policy) (told : List Nat) (now : Nat) :
    replay pol (told ++ [now]) =
      some (pol.fail now (((replay pol told).filter fun e => !pol.drops now e).getD {})) := by
  simp only [replay, List.foldl_append, List.foldl_cons, List.foldl_nil]

theorem Policy.drops_later {pol : Policy} {now now' : Nat} {e : Entry} (hnow : now ≤ now')
    (h : pol.drops now e = true) : pol.drops now' e = true := by
  by_cases hlock : e.lockUntil = 0
  · rw [Policy.drops_of_free hlock] at h ⊢
    exact Int.lt_of_lt_of_le h (Sub_mono hnow (Nat.le_refl _))
  · rw [Policy.drops_of_locked hlock] at h ⊢
    exact ⟨Nat.lt_of_lt_of_le h.1 hnow, Int.lt_of_lt_of_le h.2 (Sub_mono hnow (Nat.le_refl _))⟩

/-- What is on record is the bucket, or it was dropped and the bucket would be too. -/
def Mirrors (pol : Policy) (now : Nat) (entry bucket : Option Entry) : Prop :=
  entry = bucket ∨ entry = none ∧ ∃ e, bucket = some e ∧ pol.drops now e = true

namespace Mirrors
variable {pol : Policy} {now now' : Nat} {entry bucket : Option Entry}

theorem later (h : Mirrors pol now entry bucket) (hnow : now ≤ now') : Mirrors pol now' entry bucket := by
  rcases h with h | ⟨h, e, he, hdrops⟩
  · exact .inl h
  · exact .inr ⟨h, e, he, Policy.drops_later hnow hdrops⟩

theorem filter_eq (h : Mirrors pol now entry bucket) :
    (entry.filter fun e => !pol.drops now e) = bucket.filter fun e => !pol.drops now e := by
  rcases h with h | ⟨h, e, he, hdrops⟩
  · rw [h]
  · rw [h, he, Option.filter_some, hdrops]
    rfl

theorem prune (h : Mirrors pol now entry bucket) :
    Mirrors pol now (entry.filter fun e => !pol.drops now e) bucket := by
  cases hkept : entry.filter fun e => !pol.drops now e with
  | some e =>
    rcases h with h | ⟨h, -⟩
    · exact .inl (h ▸ (Option.filter_eq_some_iff.mp hkept).1.symm ▸ rfl)
    · rw [h] at hkept
      cases hkept
  | none =>
    cases hbucket : bucket with
    | none => exact .inl rfl
    | some e =>
      refine .inr ⟨rfl, e, rfl, ?_⟩
      rw [h.filter_eq, hbucket] at hkept
      simpa using hkept

end Mirrors

namespace Requests

/-! ### What a run has of an address -/

structure FromAddress where
  /-- The failed verifications. -/
  failed : Nat := 0
  /-- When the limiter was told of them under the address, the latest last. -/
  told : List Nat := []
  deriving DecidableEq, Repr

/-- A login tells the limiter of its failure under the user first and under the address last. -/
def fromAddress (a : String) (g : FromAddress) (s : Requests) : Action → FromAddress
  | .request i event => match s.requests[i]?, event with
    | some ⟨.login _ ip, .verifying⟩, .verified false => if ip = a then { g with failed := g.failed + 1 } else g
    | some ⟨.login _ ip, .failing [_]⟩, .next => if ip = a then { g with told := g.told ++ [s.now] } else g
    | _, _ => g
  | _ => g

/-- A failed login from the address of which the limiter is still to be told. -/
def untold (a : String) (r : Request) : Bool :=
  match r with
  | ⟨.login _ ip, .failing (_ :: _)⟩ => ip = a
  | _ => false

/-- Only logins arrive, and none of a user whose key is the address's. -/
def ApartFrom (a : String) (_ : Requests) : Action → Prop
  | .arrive (.login user ip) => userKey user ip ≠ ipKey a
  | .arrive (.grpc _) => False
  | _ => True

instance (a : String) (s : Requests) (act : Action) : Decidable (ApartFrom a s act) := by
  unfold ApartFrom
  split <;> infer_instance

/-- Only logins arrive. -/
def Logins (_ : Requests) : Action → Prop
  | .arrive (.grpc _) => False
  | _ => True

instance (s : Requests) (act : Action) : Decidable (Logins s act) := by
  unfold Logins
  split <;> infer_instance

/-! ### The invariant -/

/-- A login of a user whose key is not the address's, with the keys it still has to go through. -/
def Sound (a : String) (r : Request) : Prop :=
  ∃ user ip, r.kind = .login user ip ∧ userKey user ip ≠ ipKey a ∧
    match r.phase with
    | .failing rest => rest <:+ [userKey user ip, ipKey ip]
    | .resetting rest => rest <:+ [userKey user ip]
    | _ => True

structure Counted (a : String) (g : FromAddress) (s : Requests) : Prop where
  sound : ∀ r ∈ s.requests, Sound a r
  told : g.told.length + s.requests.countP (untold a) = g.failed
  bucket : Mirrors s.limiter.pol s.now (s.limiter.m.get (ipKey a)) (replay s.limiter.pol g.told)

variable {a : String} {g g' : FromAddress} {s t : Requests} {i : Nat} {user ip : String} {limiter : Limiter}
  {kind : Kind} {phase phase' : Phase}

/-- A request's step, by what it does to the counts and to the bucket. -/
theorem counted_put (hs : Counted a g s) (hget : s.requests[i]? = some ⟨kind, phase⟩)
    (hsound : Sound a ⟨kind, phase'⟩) (hpol : limiter.pol = s.limiter.pol)
    (htold : g'.told.length + (if untold a ⟨kind, phase'⟩ then 1 else 0) + g.failed =
      g.told.length + (if untold a ⟨kind, phase⟩ then 1 else 0) + g'.failed)
    (hbucket : Mirrors s.limiter.pol s.now (limiter.m.get (ipKey a)) (replay s.limiter.pol g'.told)) :
    Counted a g' (s.put i kind limiter phase') := by
  refine ⟨fun r hr => ?_, ?_, ?_⟩
  · rcases List.mem_or_eq_of_mem_set hr with hr | rfl
    · exact hs.sound r hr
    · exact hsound
  · have hcount := countP_set_add (p := untold a) (b := ⟨kind, phase'⟩) hget
    have hold := hs.told
    show g'.told.length + (s.requests.set i ⟨kind, phase'⟩).countP (untold a) = g'.failed
    omega
  · show Mirrors limiter.pol s.now (limiter.m.get (ipKey a)) (replay limiter.pol g'.told)
    rw [hpol]
    exact hbucket

theorem Counted.login (hs : Counted a g s) (hget : s.requests[i]? = some ⟨kind, phase⟩) :
    ∃ user ip, kind = .login user ip ∧ userKey user ip ≠ ipKey a :=
  (hs.sound _ (List.mem_of_getElem? hget)).imp fun _ h => h.imp fun _ h => ⟨h.1, h.2.1⟩

/-- A step that is neither the decision on a login nor a call that changes the limiter. -/
theorem counted_quiet (hs : Counted a g s) (hget : s.requests[i]? = some ⟨kind, phase⟩)
    (hold : untold a ⟨kind, phase⟩ = false) (hnew : untold a ⟨kind, phase'⟩ = false)
    (hsound : ∀ user ip, kind = .login user ip → userKey user ip ≠ ipKey a → Sound a ⟨kind, phase'⟩) :
    Counted a g (s.put i kind s.limiter phase') := by
  obtain ⟨user, ip, hkind, hkey⟩ := hs.login hget
  exact counted_put hs hget (hsound user ip hkind hkey) rfl (by simp [hold, hnew]) hs.bucket

theorem counted_fail {key : String} {rest : List String} (hs : Counted a g s)
    (hget : s.requests[i]? = some ⟨kind, .failing (key :: rest)⟩) :
    Counted a (fromAddress a g s (.request i .next)) (s.put i kind (s.limiter.Fail s.now key) (.failing rest)) := by
  obtain ⟨user, ip, rfl, hapart, hrest⟩ := hs.sound _ (List.mem_of_getElem? hget)
  have hkept : ∀ {key : String}, ipKey a ≠ key →
      Mirrors s.limiter.pol s.now ((s.limiter.Fail s.now key).m.get (ipKey a)) (replay s.limiter.pol g.told) := by
    intro key hne
    rw [Limiter.get_Fail_other hne]
    exact hs.bucket.prune
  have htail : rest <:+ [userKey user ip, ipKey ip] := (List.suffix_cons key rest).trans hrest
  rcases List.suffix_cons_iff.mp hrest with heq | hrest
  · -- the user's key: the bucket of the address stays
    cases heq
    have hnote : fromAddress a g s (.request i .next) = g := by simp [fromAddress, hget]
    rw [hnote]
    refine counted_put hs hget ⟨user, ip, rfl, hapart, htail⟩ rfl ?_ (hkept (Ne.symm hapart))
    simp [untold]
  · rcases List.suffix_cons_iff.mp hrest with heq | hrest
    · -- the address's own key
      cases heq
      by_cases hip : ip = a
      · subst hip
        have hnote : fromAddress ip g s (.request i .next) = { g with told := g.told ++ [s.now] } := by
          simp [fromAddress, hget]
        rw [hnote]
        refine counted_put hs hget ⟨user, ip, rfl, hapart, htail⟩ rfl (by simp [untold]) ?_
        rw [Limiter.get_Fail_self, replay_concat]
        exact .inl (by rw [← hs.bucket.filter_eq]; rfl)
      · have hnote : fromAddress a g s (.request i .next) = g := by simp [fromAddress, hget, hip]
        rw [hnote]
        refine counted_put hs hget ⟨user, ip, rfl, hapart, htail⟩ rfl (by simp [untold, hip]) (hkept ?_)
        rw [ne_eq, ipKey_inj]
        exact Ne.symm hip
    · simp at hrest

/-- A step that is no failure and no decision puts nothing down. -/
theorem fromAddress_next (hget : s.requests[i]? = some ⟨kind, phase⟩) (hphase : ∀ key, phase ≠ .failing [key]) :
    fromAddress a g s (.request i .next) = g := by
  cases kind with
  | grpc ip => cases phase <;> simp [fromAddress, hget]
  | login user ip =>
    cases phase with
    | failing rest =>
      rcases rest with _ | ⟨key, _ | ⟨key', rest⟩⟩
      · simp [fromAddress, hget]
      · exact absurd rfl (hphase key)
      · simp [fromAddress, hget]
    | checking | verifying | resetting | finished => simp [fromAddress, hget]

theorem untold_eq_false (hphase : ∀ rest, phase ≠ .failing rest) : untold a ⟨kind, phase⟩ = false := by
  cases kind with
  | grpc ip => rfl
  | login user ip =>
    cases phase with
    | failing rest => exact absurd rfl (hphase rest)
    | checking | verifying | resetting | finished => rfl

/-- The success of a login resets no address's bucket. -/
theorem reset_apart {key : String} {rest : List String} (hs : Counted a g s)
    (hget : s.requests[i]? = some ⟨kind, .resetting (key :: rest)⟩) :
    (s.limiter.Reset key).m.get (ipKey a) = s.limiter.m.get (ipKey a) := by
  obtain ⟨user, ip, rfl, hapart, hrest⟩ := hs.sound _ (List.mem_of_getElem? hget)
  rcases List.suffix_cons_iff.mp hrest with heq | hrest
  · cases heq
    exact Limiter.get_Reset_other (Ne.symm hapart)
  · simp at hrest

theorem counted_step {act : Action} (hs : Counted a g s) (hrule : ApartFrom a s act)
    (h : s.step act = some t) : Counted a (fromAddress a g s act) t := by
  cases steps_of_step h with
  | arrive kind =>
    cases kind with
    | grpc ip => exact absurd hrule id
    | login user ip =>
      refine ⟨fun r hr => ?_, ?_, hs.bucket⟩
      · rcases List.mem_append.mp hr with hr | hr
        · exact hs.sound r hr
        · obtain rfl := List.mem_singleton.mp hr
          exact ⟨user, ip, rfl, hrule, trivial⟩
      · show g.told.length + (s.requests ++ [_]).countP (untold a) = g.failed
        rw [List.countP_append]
        exact hs.told
  | tick d => exact ⟨hs.sound, hs.told, hs.bucket.later (Nat.le_add_right _ _)⟩
  | check hget | refuse hget | verify hget =>
    rw [fromAddress_next hget (by simp)]
    exact counted_quiet hs hget (untold_eq_false (by simp)) (untold_eq_false (by simp))
      fun user ip hkind hkey => ⟨user, ip, hkind, hkey, trivial⟩
  | @accept i kind hget =>
    have hnote : fromAddress a g s (.request i (.verified true)) = g := by
      cases kind <;> simp [fromAddress, hget]
    rw [hnote]
    exact counted_quiet hs hget (untold_eq_false (by simp)) (untold_eq_false (by simp))
      fun user ip hkind hkey => ⟨user, ip, hkind, hkey, by rw [hkind]; exact List.suffix_refl _⟩
  | @reject i kind hget =>
    obtain ⟨user, ip, rfl, hkey⟩ := hs.login hget
    have hsound : Sound a ⟨.login user ip, .failing (Kind.login user ip).keys⟩ :=
      ⟨user, ip, rfl, hkey, List.suffix_refl _⟩
    by_cases hip : ip = a
    · have hnote : fromAddress a g s (.request i (.verified false)) = { g with failed := g.failed + 1 } := by
        simp [fromAddress, hget, hip]
      rw [hnote]
      refine counted_put hs hget hsound rfl ?_ hs.bucket
      simp only [untold, Kind.keys, hip, decide_true, if_true, Bool.false_eq_true, if_false]
      omega
    · have hnote : fromAddress a g s (.request i (.verified false)) = g := by simp [fromAddress, hget, hip]
      rw [hnote]
      exact counted_put hs hget hsound rfl (by simp [untold, Kind.keys, hip]) hs.bucket
  | missing hget =>
    obtain ⟨user, ip, hkind, -⟩ := hs.login hget
    cases hkind
  | fail hget => exact counted_fail hs hget
  | @reset i kind key rest hget =>
    rw [fromAddress_next hget (by simp)]
    obtain ⟨user, ip, rfl, hapart, hrest⟩ := hs.sound _ (List.mem_of_getElem? hget)
    refine counted_put hs hget ⟨user, ip, rfl, hapart, (List.suffix_cons key rest).trans hrest⟩ rfl
      (by simp [untold]) ?_
    rw [reset_apart hs hget]
    exact hs.bucket
  | finish hget hphase =>
    rw [fromAddress_next hget (by rcases hphase with rfl | rfl <;> simp)]
    refine counted_quiet hs hget ?_ (untold_eq_false (by simp)) fun user ip hkind hkey =>
      ⟨user, ip, hkind, hkey, trivial⟩
    rcases hphase with rfl | rfl
    · cases hs.login hget with
      | intro user hlogin =>
        obtain ⟨ip, rfl, -⟩ := hlogin
        rfl
    · exact untold_eq_false (by simp)

theorem counted_run {as : List Action} (hs : machine.init s) (hrun : machine.run s as = some t)
    (hrule : machine.Along (ApartFrom a) s as) : Counted a (machine.record (fromAddress a) {} s as) t := by
  refine machine.record_along (fromAddress a) (I := Counted a)
    (fun g u act v hC hu hstep => counted_step hu hC hstep) ⟨?_, ?_, ?_⟩ hrun hrule
  · rw [hs.2]
    simp
  · rw [hs.2]
    rfl
  · rw [show s.limiter.m = ∅ from hs.1, Table.get_empty]
    exact .inl rfl

/-- A login with a wrong password. -/
def wrong (i : Nat) (user : String) : List Action :=
  .arrive (.login user "1.2.3.4") :: List.replicate 3 (.request i .next) ++
    [.request i (.verified false), .request i .next, .request i .next, .request i .next]

/-- A login with the right one. -/
def right (i : Nat) (user : String) : List Action :=
  .arrive (.login user "1.2.3.4") :: List.replicate 3 (.request i .next) ++
    [.request i (.verified true), .request i .next, .request i .next]

end Requests
end Marshal.Ratelimit
