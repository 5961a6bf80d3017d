import Marshal.Daemon.Representation
import Marshal.Store

/-! Saving the apps and adding them again.

The list of ids and names comes through the saved file: names are distinct, specs
carry the ids, and `Add` keeps a stored id that is positive and free. An id that is
not positive is a fresh one that has overflowed, and no fresh id is left above the
largest 64-bit integer. -/
namespace Marshal.Daemon
open Config
namespace Manager

/-- The apps saved in `s` are loaded and added to a new manager: every one is, the ids and
names are those of `m` in order, and the next app without an id gets one above all of them. -/
structure Restores (s : Store) (m : Manager) (apps : List App) : Prop where
  loaded : (s.Save m.Specs).Load = .ok apps
  added : ∀ entry ∈ (apps.foldl Add {}).results, ∃ snaps, entry.2 = .ok snaps
  idNames : (apps.foldl Add {}).apps.map idName = m.apps.map idName
  next : ∀ app : App, app.id = 0 → ∀ a ∈ (apps.foldl Add {}).apps,
    a.id < (apps.foldl Add {}).assignID app

/-! ### What is known of any manager's apps -/

/-- An app's id, name and spec, less the environment. -/
def savedPart (a : ManagedApp) : Int × String × App :=
  (a.id, a.name, { a.spec with env := [] })

theorem lasting_savedPart : Lasting savedPart := ⟨fun _ _ => rfl, fun _ _ => rfl⟩

structure Savable (apps : List (Int × String × App)) : Prop where
  names : (apps.map (·.2.1)).Nodup
  /-- Only ids that overflowed are given twice. -/
  ids : apps.Pairwise fun a b => a.1 = b.1 → a.1 ≤ 0
  specID : ∀ a ∈ apps, a.2.2.id = a.1
  specName : ∀ a ∈ apps, a.2.2.name = a.2.1
  fits : ∀ a ∈ apps, a.2.2.Fits

/-- The numbers of a spec that comes in are of the Go types. -/
def fitting : Action → Prop
  | .call (.add app) => app.Fits
  | _ => True

theorem Savable.sublist {apps apps' : List (Int × String × App)} (h : Savable apps)
    (hsub : apps'.Sublist apps) : Savable apps' :=
  ⟨h.names.sublist (hsub.map _), h.ids.sublist hsub, fun a ha => h.specID a (hsub.subset ha),
    fun a ha => h.specName a (hsub.subset ha), fun a ha => h.fits a (hsub.subset ha)⟩

theorem succ64_range (n : Int) : -2 ^ 63 ≤ succ64 n ∧ succ64 n < 2 ^ 63 := by
  unfold succ64
  have hlow := @Int.le_bmod (n + 1) (2 ^ 64) (by decide)
  have hhigh := @Int.bmod_lt (n + 1) (2 ^ 64) (by decide)
  omega

theorem succ64_of_lt {n : Int} (h0 : 0 ≤ n) (h : n < 2 ^ 63 - 1) : succ64 n = n + 1 := by
  unfold succ64
  rw [Int.bmod_eq_of_le] <;> omega

theorem succ64_top : succ64 (2 ^ 63 - 1) = -2 ^ 63 := by decide

/-- The id given is stored and free, fresh and above all, or overflowed. -/
theorem assignID_cases (m : Manager) (app : App) :
    (m.assignID app = app.id ∧ 0 < app.id ∧ ∀ a ∈ m.apps, a.id ≠ app.id) ∨
    (maxAppID m.apps < 2 ^ 63 - 1 ∧ m.assignID app = maxAppID m.apps + 1) ∨
    (2 ^ 63 - 1 ≤ maxAppID m.apps ∧ m.assignID app = succ64 (maxAppID m.apps)) := by
  unfold assignID
  split
  · by_cases hroom : maxAppID m.apps < 2 ^ 63 - 1
    · exact .inr (.inl ⟨hroom, succ64_of_lt (maxAppID_nonneg _) hroom⟩)
    · exact .inr (.inr ⟨by omega, rfl⟩)
  · rename_i hstored
    simp only [Bool.or_eq_true, decide_eq_true_eq, not_or] at hstored
    refine .inl ⟨rfl, by omega, fun a ha heq => hstored.2 ?_⟩
    rw [idTaken, List.any_eq_true]
    exact ⟨a, ha, by simpa using heq⟩

theorem maxAppID_mem (apps : List ManagedApp) :
    maxAppID apps = 0 ∨ ∃ a ∈ apps, a.id = maxAppID apps := by
  have hfold : ∀ top : Int, apps.foldl (fun top a => if a.id > top then a.id else top) top = top ∨
      ∃ a ∈ apps, a.id = apps.foldl (fun top a => if a.id > top then a.id else top) top := by
    induction apps with
    | nil => exact fun top => .inl rfl
    | cons b rest ih =>
      intro top
      rw [List.foldl_cons]
      rcases ih (if b.id > top then b.id else top) with heq | ⟨a, ha, heq⟩
      · rw [heq]
        split
        · exact .inr ⟨b, List.mem_cons_self, rfl⟩
        · exact .inl rfl
      · exact .inr ⟨a, List.mem_cons_of_mem b ha, heq⟩
  exact hfold 0

theorem savable_append {m : Manager} {app : App} (h : Savable (m.apps.map savedPart))
    (hfits : app.Fits) (hname : m.apps.any (·.name == app.name) = false) :
    Savable ((m.apps ++ [m.addedApp app]).map savedPart) := by
  have hids : ∀ a ∈ m.apps, a.spec.id = a.id ∧ a.spec.Fits := by
    intro a ha
    have hmem := List.mem_map_of_mem (f := savedPart) ha
    have hspec := h.fits _ hmem
    exact ⟨h.specID _ hmem, ⟨hspec.id, hspec.instances, hspec.maxRestarts, hspec.killTimeout,
      hspec.maxMemoryRestart, hspec.logs⟩⟩
  have hfree : ∀ a ∈ m.apps, a.id = m.assignID app → a.id ≤ 0 := by
    intro a ha heq
    rcases m.assignID_cases app with ⟨hid, -, hother⟩ | ⟨-, hid⟩ | ⟨htop, hid⟩
    · exact absurd (heq.trans hid) (hother a ha)
    · have := le_maxAppID ha
      omega
    · rcases maxAppID_mem m.apps with hzero | ⟨b, hb, hbid⟩
      · omega
      · have hfit := (hids b hb).2.id
        rw [(hids b hb).1, hbid] at hfit
        have hmax : maxAppID m.apps = 2 ^ 63 - 1 := by omega
        rw [heq, hid, hmax, succ64_top]
        decide
  have hrange : -2 ^ 63 ≤ m.assignID app ∧ m.assignID app < 2 ^ 63 := by
    unfold assignID
    split
    · exact succ64_range _
    · exact hfits.id
  rw [List.map_append]
  refine ⟨?_, ?_, ?_, ?_, ?_⟩
  · rw [List.map_append, List.map_cons, List.map_nil, List.map_cons, List.map_nil,
      ← List.concat_eq_append, List.nodup_concat]
    refine ⟨?_, h.names⟩
    intro hmem
    obtain ⟨k, hk, heq⟩ := List.mem_map.mp hmem
    obtain ⟨b, hb, rfl⟩ := List.mem_map.mp hk
    rw [List.any_eq_false] at hname
    exact hname b hb (beq_iff_eq.mpr heq)
  · rw [List.pairwise_append]
    refine ⟨h.ids, List.pairwise_singleton _ _, ?_⟩
    intro k hk l hl heq
    obtain ⟨b, hb, rfl⟩ := List.mem_map.mp hk
    rw [List.map_cons, List.map_nil, List.mem_singleton] at hl
    subst hl
    exact hfree b hb heq
  · intro k hk
    rcases List.mem_append.mp hk with hk | hk
    · exact h.specID k hk
    · rw [List.mem_singleton.mp hk]
      rfl
  · intro k hk
    rcases List.mem_append.mp hk with hk | hk
    · exact h.specName k hk
    · rw [List.mem_singleton.mp hk]
      rfl
  · intro k hk
    rcases List.mem_append.mp hk with hk | hk
    · exact h.fits k hk
    · rw [List.mem_singleton.mp hk]
      exact ⟨hrange, hfits.instances, hfits.maxRestarts, hfits.killTimeout,
        hfits.maxMemoryRestart, hfits.logs⟩

theorem savable_step {m t : Manager} {a : Action} (hfits : fitting a)
    (hm : Savable (m.apps.map savedPart)) (h : m.step a = some t) :
    Savable (t.apps.map savedPart) := by
  cases hkeeps : keepsList a with
  | true =>
    rw [lasting_savedPart.step hkeeps h]
    exact hm
  | false =>
    cases moves_of_step h with
    | @call op hidle =>
      cases op with
      | add app =>
        show Savable ((m.Add app).apps.map savedPart)
        cases hname : m.apps.any (·.name == app.name) with
        | true =>
          rw [Add_taken hname]
          exact hm
        | false =>
          rw [(Add_new hname).1]
          exact savable_append hm hfits hname
      | delete sel =>
        show Savable ((m.Delete sel).apps.map savedPart)
        unfold Delete
        split
        · exact hm
        · exact hm.sublist (List.filter_sublist.map _)
      | stop | restart | reload | updateEnv | resetCounters | stopAll => cases hkeeps
    | exec | worker | cancelCtx => cases hkeeps

theorem savable_run {as : List Action} {m : Manager} (hrun : machine.run {} as = some m)
    (hfits : ∀ a ∈ as, fitting a) : Savable (m.apps.map savedPart) := by
  have hnew : Savable (({} : Manager).apps.map savedPart) :=
    ⟨List.nodup_nil, List.Pairwise.nil, by simp, by simp, by simp⟩
  exact machine.along_invariant (C := fun _ a => fitting a)
    (I := fun u => Savable (u.apps.map savedPart)) (fun _ _ _ hC hI h => savable_step hC hI h)
    hnew hrun (machine.along_of_mem (fun _ a ha => hfits a ha) _)

theorem Savable.spec {m : Manager} (h : Savable (m.apps.map savedPart)) {a : ManagedApp}
    (ha : a ∈ m.apps) : a.spec.id = a.id ∧ a.spec.name = a.name ∧ a.spec.Fits := by
  have hmem := List.mem_map_of_mem (f := savedPart) ha
  have hfits := h.fits _ hmem
  exact ⟨h.specID _ hmem, h.specName _ hmem, ⟨hfits.id, hfits.instances, hfits.maxRestarts,
    hfits.killTimeout, hfits.maxMemoryRestart, hfits.logs⟩⟩

/-! ### Adding the saved apps -/

def specIdName (app : App) : Int × String := (app.id, app.name)

theorem Add_ok {m : Manager} {app : App} (hname : ∀ a ∈ m.apps, a.name ≠ app.name) :
    (m.Add app).apps = m.apps ++ [m.addedApp app] ∧
      ∃ snaps, (m.Add app).results = (.add app, .ok snaps) :: m.results := by
  have hany : m.apps.any (·.name == app.name) = false := by
    rw [List.any_eq_false]
    intro a ha
    simpa using hname a ha
  refine ⟨(Add_new hany).1, ?_⟩
  unfold Add
  rw [if_neg (by simp [hany])]
  exact ⟨_, rfl⟩

/-- Apps with positive ids and names that are all distinct are added as they are. -/
theorem foldl_Add {apps : List App} {m : Manager} (hpos : ∀ app ∈ apps, 0 < app.id)
    (hids : ((m.apps.map idName ++ apps.map specIdName).map Prod.fst).Nodup)
    (hnames : ((m.apps.map idName ++ apps.map specIdName).map Prod.snd).Nodup) :
    (apps.foldl Add m).apps.map idName = m.apps.map idName ++ apps.map specIdName ∧
    ∀ entry ∈ (apps.foldl Add m).results, entry ∈ m.results ∨ ∃ snaps, entry.2 = .ok snaps := by
  induction apps generalizing m with
  | nil => exact ⟨(List.append_nil _).symm, fun _ h => .inl h⟩
  | cons app rest ih =>
    rw [List.map_append, List.nodup_append] at hids hnames
    have hid : ∀ a ∈ m.apps, a.id ≠ app.id := fun a ha =>
      hids.2.2 a.id (by simpa [idName] using ⟨a, ha, rfl⟩) app.id (by simp [specIdName])
    have hname : ∀ a ∈ m.apps, a.name ≠ app.name := fun a ha =>
      hnames.2.2 a.name (by simpa [idName] using ⟨a, ha, rfl⟩) app.name (by simp [specIdName])
    have hkeep : m.assignID app = app.id := by
      unfold assignID
      rw [if_neg]
      have := hpos app List.mem_cons_self
      simp only [idTaken, Bool.or_eq_true, decide_eq_true_eq, List.any_eq_true, beq_iff_eq, not_or]
      refine ⟨by omega, ?_⟩
      intro htaken
      obtain ⟨a, ha, heq⟩ := htaken
      exact hid a ha heq
    obtain ⟨happs, snaps, hresults⟩ := Add_ok hname
    have hlist : (m.Add app).apps.map idName ++ rest.map specIdName =
        m.apps.map idName ++ (app :: rest).map specIdName := by
      rw [happs, List.map_append, List.append_assoc]
      simp [addedApp, idName, specIdName, hkeep]
    rw [← List.nodup_append, ← List.map_append, ← hlist] at hids hnames
    obtain ⟨hrest, hok⟩ := ih (fun a ha => hpos a (List.mem_cons_of_mem app ha)) hids hnames
    rw [List.foldl_cons]
    refine ⟨hrest.trans hlist, ?_⟩
    intro entry hentry
    rcases hok entry hentry with hold | hok
    · rw [hresults] at hold
      rcases List.mem_cons.mp hold with rfl | hold
      · exact .inr ⟨snaps, rfl⟩
      · exact .inl hold
    · exact .inr hok

/-! ### When the list is restored -/

/-- Every id is positive and has a successor. -/
def Room (m : Manager) : Prop := ∀ a ∈ m.apps, 0 < a.id ∧ a.id < 2 ^ 63 - 1

instance (m : Manager) : Decidable (Room m) := inferInstanceAs (Decidable (∀ _ ∈ _, _))

theorem next_of_room {m : Manager} (h : Room m) {app : App} (hid : app.id = 0) :
    ∀ a ∈ m.apps, a.id < m.assignID app := by
  have hmax : maxAppID m.apps < 2 ^ 63 - 1 := by
    rcases maxAppID_mem m.apps with hzero | ⟨a, ha, heq⟩
    · omega
    · have := (h a ha).2
      omega
  intro a ha
  have hle := le_maxAppID ha
  rcases m.assignID_cases app with ⟨-, hpos, -⟩ | ⟨-, heq⟩ | ⟨htop, -⟩ <;> omega

theorem restores_of_room (s : Store) {m : Manager} (hm : Savable (m.apps.map savedPart))
    (hroom : Room m) : Restores s m (m.Specs.map App.restartRead) := by
  have hlist : (m.Specs.map App.restartRead).map specIdName = m.apps.map idName := by
    rw [Specs, List.map_map, List.map_map]
    apply List.map_congr_left
    intro a ha
    obtain ⟨hid, hname, -⟩ := hm.spec ha
    show (a.spec.id, a.spec.name) = (a.id, a.name)
    rw [hid, hname]
  have hids : (m.apps.map (·.id)).Nodup := by
    have hpairs := hm.ids
    rw [List.pairwise_map] at hpairs
    rw [List.Nodup, List.pairwise_map]
    refine hpairs.imp_of_mem ?_
    intro a b ha hb h heq
    have := (hroom a ha).1
    have := h heq
    change a.id ≤ 0 at this
    omega
  have hnames : (m.apps.map (·.name)).Nodup := by
    have h := hm.names
    rwa [List.map_map] at h
  have hpos : ∀ app ∈ m.Specs.map App.restartRead, 0 < app.id := by
    intro app happ
    obtain ⟨spec, hspec, rfl⟩ := List.mem_map.mp happ
    obtain ⟨a, ha, rfl⟩ := List.mem_map.mp hspec
    show 0 < a.spec.id
    rw [(hm.spec ha).1]
    exact (hroom a ha).1
  have hfst : (m.apps.map idName).map Prod.fst = m.apps.map (·.id) := by rw [List.map_map]; rfl
  have hsnd : (m.apps.map idName).map Prod.snd = m.apps.map (·.name) := by rw [List.map_map]; rfl
  obtain ⟨hrestored, hok⟩ := @foldl_Add (m.Specs.map App.restartRead) {} hpos
    (by rw [hlist]; simpa [hfst] using hids) (by rw [hlist]; simpa [hsnd] using hnames)
  rw [hlist] at hrestored
  have hroom' : Room ((m.Specs.map App.restartRead).foldl Add {}) := by
    intro a ha
    have hmem : idName a ∈ m.apps.map idName := by
      have := List.mem_map_of_mem (f := idName) ha
      rw [hrestored] at this
      simpa using this
    obtain ⟨b, hb, heq⟩ := List.mem_map.mp hmem
    have hid : b.id = a.id := congrArg Prod.fst heq
    rw [← hid]
    exact hroom b hb
  refine ⟨s.Load_Save ?_, ?_, by simpa using hrestored, fun app happ => next_of_room hroom' happ⟩
  · intro spec hspec
    obtain ⟨a, ha, rfl⟩ := List.mem_map.mp hspec
    exact (hm.spec ha).2.2
  · intro entry hentry
    rcases hok entry hentry with hold | hok
    · cases hold
    · exact hok

/-- An id that is not positive was given because the largest one was in use. -/
def Overflowed (m : Manager) : Prop :=
  (∃ a ∈ m.apps, a.id ≤ 0) → ∃ a ∈ m.apps, 2 ^ 63 - 1 ≤ a.id

theorem overflowed_Add {m : Manager} (h : Overflowed m) (app : App) : Overflowed (m.Add app) := by
  cases hname : m.apps.any (·.name == app.name) with
  | true =>
    rw [Add_taken hname]
    exact h
  | false =>
    intro hlow
    rw [(Add_new hname).1] at hlow ⊢
    have hold : (∃ a ∈ m.apps, 2 ^ 63 - 1 ≤ a.id) →
        ∃ a ∈ m.apps ++ [m.addedApp app], 2 ^ 63 - 1 ≤ a.id := by
      intro hmem
      obtain ⟨a, ha, htop⟩ := hmem
      exact ⟨a, List.mem_append_left _ ha, htop⟩
    obtain ⟨a, ha, hneg⟩ := hlow
    rcases List.mem_append.mp ha with ha | ha
    · exact hold (h ⟨a, ha, hneg⟩)
    · rw [List.mem_singleton.mp ha] at hneg
      have hneg : m.assignID app ≤ 0 := hneg
      have hnonneg := maxAppID_nonneg m.apps
      rcases m.assignID_cases app with ⟨heq, hpos, -⟩ | ⟨-, heq⟩ | ⟨htop, -⟩
      · omega
      · omega
      · rcases maxAppID_mem m.apps with hzero | ⟨b, hb, heq⟩
        · omega
        · exact hold ⟨b, hb, by omega⟩

theorem overflowed_foldl (apps : List App) {m : Manager} (h : Overflowed m) :
    Overflowed (apps.foldl Add m) := by
  induction apps generalizing m with
  | nil => exact h
  | cons app rest ih => exact ih (overflowed_Add h app)

theorem room_of_restores {s : Store} {m : Manager} {apps : List App}
    (hm : Savable (m.apps.map savedPart)) (h : Restores s m apps) : Room m := by
  have hsame : ∀ n : Int, (∃ a ∈ m.apps, a.id = n) ↔ ∃ a ∈ (apps.foldl Add {}).apps, a.id = n := by
    intro n
    have hids := congrArg (List.map Prod.fst) h.idNames
    simp only [List.map_map] at hids
    have hmem : n ∈ (apps.foldl Add {}).apps.map (Prod.fst ∘ idName) ↔
        n ∈ m.apps.map (Prod.fst ∘ idName) := by rw [hids]
    simp only [List.mem_map] at hmem
    exact hmem.symm
  have htop : ¬ ∃ a ∈ (apps.foldl Add {}).apps, 2 ^ 63 - 1 ≤ a.id := by
    intro hmem
    obtain ⟨a, ha, hle⟩ := hmem
    have hnext := h.next { name := "" } rfl a ha
    have hmax := le_maxAppID ha
    obtain ⟨b, hb, heq⟩ := (hsame (maxAppID (apps.foldl Add {}).apps)).mpr (by
      rcases maxAppID_mem (apps.foldl Add {}).apps with hzero | hmem
      · omega
      · exact hmem)
    have hfit := (hm.spec hb).2.2.id
    rw [(hm.spec hb).1, heq] at hfit
    have hlast : maxAppID (apps.foldl Add {}).apps = 2 ^ 63 - 1 := by omega
    rcases (apps.foldl Add {}).assignID_cases { name := "" } with ⟨-, hpos, -⟩ | ⟨hlt, -⟩ | ⟨-, hid⟩
    · cases hpos
    · omega
    · rw [hid, hlast, succ64_top] at hnext
      omega
  intro a ha
  obtain ⟨b, hb, heq⟩ := (hsame a.id).mp ⟨a, ha, rfl⟩
  refine ⟨?_, ?_⟩
  · by_contra hlow
    exact htop (@overflowed_foldl apps {} (by simp [Overflowed]) ⟨b, hb, by omega⟩)
  · by_contra hhigh
    exact htop ⟨b, hb, by omega⟩

/-- **Ids and order survive a save and a load unless the ids have run out.** For every manager
that any run reaches, saving its specs, loading them and adding them in order to a new manager
adds every app and gives the same ids and names in the same order, with the next id above them
all, if and only if every id is positive and below the largest 64-bit integer. -/
theorem restores_iff {as : List Action} {m : Manager} (hrun : machine.run {} as = some m)
    (hfits : ∀ a ∈ as, fitting a) (s : Store) : (∃ apps, Restores s m apps) ↔ Room m := by
  have hm := savable_run hrun hfits
  constructor
  · intro h
    obtain ⟨apps, h⟩ := h
    exact room_of_restores hm h
  · intro h
    exact ⟨_, restores_of_room s hm h⟩

/-- Stored, fresh, colliding and negative ids. -/
def mixedIDs : List Action :=
  [.call (.add { name := "a", id := 7 }), .call (.add { name := "b" }),
    .call (.add { name := "c", id := 7 }), .call (.add { name := "d", id := -1 }),
    .call (.add { name := "e", id := 2 })]

theorem mixedIDs_fitting : ∀ a ∈ mixedIDs, fitting a := by
  intro a ha
  simp only [mixedIDs, List.mem_cons, List.not_mem_nil, or_false] at ha
  rcases ha with rfl | rfl | rfl | rfl | rfl <;>
    exact ⟨by decide, by decide, by decide, by decide, by decide, by simp⟩

theorem restores_iff_mixedIDs :
    ∃ m, machine.run {} mixedIDs = some m ∧ ∃ apps, Restores {} m apps :=
  ⟨_, rfl, (@restores_iff mixedIDs _ rfl mixedIDs_fitting {}).mpr (by decide)⟩

/-- The largest id there is. -/
def topID : List Action := [.call (.add { name := "a", id := 2 ^ 63 - 1 })]

/-- No id is left for another app. -/
theorem ids_run_out :
    ¬ ∀ (as : List Action) (m : Manager) (s : Store), machine.run {} as = some m →
      (∀ a ∈ as, fitting a) → ∃ apps, Restores s m apps := by
  intro h
  have hfits : ∀ a ∈ topID, fitting a := by
    intro a ha
    rw [List.mem_singleton.mp ha]
    exact ⟨by decide, by decide, by decide, by decide, by decide, by simp⟩
  obtain ⟨apps, hrestores⟩ := h topID _ {} rfl hfits
  have hroom := room_of_restores (savable_run rfl hfits) hrestores
  exact absurd (hroom _ List.mem_cons_self).2 (by decide)

end Manager
end Marshal.Daemon
