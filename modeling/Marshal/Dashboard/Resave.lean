import Marshal.Dashboard.Files

/-! A file that is viewed and saved as it is.

What is written is the view's text, so the bytes stay only if they are UTF-8: a file
that is not passes for text when it has no zero byte in its first 8 KiB. And a save that
fails after the write is rolled back to HEAD, whatever the file was before
(`resaved_iff`). -/
namespace Marshal.Dashboard.Files
open Deploy FilePath WorkTree

variable {site : Site} {d : Deployer} {pre : Repo} {agent app path : String} {body : WriteBody}
  {root full : List String} {bs : List UInt8}

/-- What a file's view is saved as. -/
def resaved (bs : List UInt8) : List UInt8 := Utf8.encode (Utf8.lossy bs)

/-- The save does not get as far as the file. -/
def Refused (site : Site) (d : Deployer) (app path credential : String) (bs : List UInt8) : Prop :=
  path = "" ∨ maxCommitBytes < (resaved bs).length ∨
    (∃ text, site.resolveCredential credential = .error text) ∨ site.unreachable ≠ none ∨
    site.gitSourced app = false ∨ (d.states.get app).isSome = true ∨
    ¬ Captured site.world .edit path ""

/-- All that comes after HEAD is known goes well. -/
def Succeeds (w : World) : Prop :=
  w.write = .done ∧ w.staged = true ∧ w.commit.isSome = true ∧ w.credential = true ∧ w.push = true

/-- The bytes that the write leaves. -/
def written (w : World) (bs : List UInt8) : List UInt8 :=
  match w.write with
  | .done => resaved bs
  | .fails => bs
  | .torn n => (resaved bs).take n

/-- Git tracks the file when the save is rolled back. -/
def tracks (w : World) (pre : Repo) (full : List String) : Bool :=
  (w.write = .done ∧ w.paths full = true) ∨ (pre.index full).isSome = true

/-- The bytes stay: nothing is written; or UTF-8 is; or HEAD has the same bytes; or neither HEAD
nor the index has the file and the write has left them. -/
def Stays (site : Site) (d : Deployer) (pre : Repo) (app path credential : String) (full : List String)
    (bs : List UInt8) : Prop :=
  Refused site d app path credential bs ∨
    (Succeeds site.world ∧ bs.toByteArray.IsValidUTF8) ∨
    (¬ Succeeds site.world ∧ (pre.head.tree full = some (.file bs) ∨
      (pre.head.tree full = none ∧ tracks site.world pre full = false ∧ written site.world bs = bs)))

/-! ### The view's text -/

theorem view_content {fault : Option String} {dto : FileContentDTO} (hroot : d.Root app = some root)
    (hfull : confine d.disk root path = .ok full) (hfile : d.disk.node full = some (.file bs))
    (hview : readFileFiles agent app (readOp d app path fault) = .ok dto)
    (htruncated : dto.Truncated = false) (hbinary : dto.Binary = false) :
    agent ≠ "" ∧ app ≠ "" ∧ contentBytes dto.Content = resaved bs := by
  unfold readFileFiles at hview
  split at hview
  · cases hview
  · rename_i hnames
    simp only [readOp, hroot, ReadFile, hfull, hfile] at hview
    cases fault with
    | some text => cases hview
    | none =>
      simp only [Except.ok.injEq] at hview
      subst hview
      have hwhole : bs.take maxFileBytes = bs := by
        refine List.take_of_length_le ?_
        have hlen : ¬ (bs.take maxFileBytes).length < bs.length := by simpa using htruncated
        rw [List.length_take] at hlen
        omega
      refine ⟨fun h => hnames (.inl h), fun h => hnames (.inr h), ?_⟩
      simp only [hwhole] at hbinary
      simp only [contentBytes, resaved, hwhole, hbinary, Bool.false_eq_true, if_false, String.toList_ofList]

/-! ### The edit -/

/-- A deployment's file is below a directory. -/
theorem full_ne_nil (hroot : d.Root app = some root) (hfull : confine d.disk root path = .ok full)
    (hfile : d.disk.node full = some (.file bs)) : full ≠ [] := by
  rintro rfl
  obtain ⟨realRoot, hreal, -, -, hinside⟩ := confine_ok hfull
  obtain rfl : realRoot = [] := List.prefix_nil.mp (prefix_of_inside hinside)
  have hdir : d.disk.Stat root = some .dir := by
    unfold Deployer.Root at hroot
    split at hroot
    · cases hroot
    · split at hroot <;> cases hroot
      assumption
  unfold Disk.Stat at hdir
  cases hresolve : d.disk.resolve root with
  | none => simp [hresolve] at hdir
  | some q =>
    have hq : d.disk.EvalSymlinks root = some q := Disk.walk_mono (by decide) hresolve
    rw [hreal, Option.some.injEq] at hq
    rw [hresolve, Option.bind_some, ← hq, hfile] at hdir
    cases hdir

variable {dir : List String} {w : World}

theorem edit_applied (hfull : confine d.disk dir path = .ok full)
    (hfile : d.disk.node full = some (.file bs)) (hne : full ≠ []) :
    ∃ result s, apply d.disk dir w (checkout d.disk pre) .edit path "" (resaved bs) = ⟨result, s, none⟩ ∧
      (result = .ok () ↔ w.write = .done ∧ w.staged = true) ∧
      s.files full = some (.file (written w bs)) ∧ (s.index full).isSome = tracks w pre full := by
  have hwritable : d.disk.writable full = true := by simp [Disk.writable, hne, hfile]
  have hbefore : d.disk.files full = some (.file bs) := by simp [Disk.files, hfile]
  simp only [apply, applyEdit, hfull]
  cases hwrite : w.write with
  | fails =>
    exact ⟨.error "write failed", checkout d.disk pre, by simp [WriteFile, hwritable, hwrite], by simp,
      by simp [written, hwrite, hbefore], by simp [tracks, hwrite]⟩
  | torn n =>
    exact ⟨.error "write failed", _, by simp [WriteFile, hwritable, hwrite]; rfl, by simp,
      by simp [written, hwrite, Clone.write], by simp [tracks, hwrite, Clone.write]⟩
  | done =>
    refine ⟨_, _, by simp [WriteFile, hwritable, hwrite, gitAdd]; exact ⟨rfl, rfl⟩, ?_, ?_, ?_⟩
    · cases w.staged <;> simp
    · simp [written, hwrite, Clone.stage, Clone.write]
    · cases hpath : w.paths full <;> simp [tracks, hwrite, hpath, Clone.stage, Clone.write]

/-- What is left of the file when the save is made. -/
theorem edit_stays_iff (hfull : confine d.disk dir path = .ok full)
    (hfile : d.disk.node full = some (.file bs)) (hne : full ≠ []) (hcaptured : Captured w .edit path "")
    (Username message : String) :
    (mutateAndPush d.disk dir w pre Username .edit path "" (resaved bs) message).2.files full =
        some (.file bs) ↔
      (Succeeds w ∧ bs.toByteArray.IsValidUTF8) ∨
      (¬ Succeeds w ∧ (pre.head.tree full = some (.file bs) ∨
        (pre.head.tree full = none ∧ tracks w pre full = false ∧ written w bs = bs))) := by
  obtain ⟨result, s, happly, hresult, hfiles, hindex⟩ := @edit_applied d pre path full bs dir w hfull hfile hne
  have hlands : Lands w ⟨result, s, none⟩ ↔ Succeeds w := by
    unfold Lands Succeeds
    rw [hresult, and_assoc]
  obtain ⟨hland, -, hkept⟩ | ⟨hland, -, hroll⟩ := @mutateAndPush_captured d.disk dir w pre Username .edit path ""
    (resaved bs) message _ hcaptured happly
  · rw [hlands] at hland
    have hwritten : written w bs = resaved bs := by simp [written, hland.1]
    rw [hkept, hfiles, hwritten]
    simp [hland, resaved, ← Utf8.encode_lossy_iff]
  · rw [hlands] at hland
    rw [hroll]
    show (s.reset pre.head).files full = some (.file bs) ↔ _
    cases htree : pre.head.tree full with
    | some node => simp [reset_tracked htree, hland]
    | none =>
      rw [← hindex]
      cases hs : s.index full with
      | none => simp [reset_untracked htree hs, hfiles, hland]
      | some node => simp [Clone.reset, htree, hs, hland]

/-! ### The save -/

/-- A save that is not refused is the agent's edit. -/
theorem save_eq {text message credential : String} (hroot : d.Root app = some root) (hagent : agent ≠ "")
    (happ : app ≠ "") (htext : contentBytes text = resaved bs)
    (hlet : ¬ Refused site d app path credential bs) :
    ∃ Username message', save site d pre agent app path false ⟨text, message, credential⟩ =
      mutateAndPush d.disk root site.world pre Username .edit path "" (resaved bs) message' := by
  simp only [Refused, not_or, not_not] at hlet
  obtain ⟨hpath, hlen, hcred, hreach, hgit, hbusy, -⟩ := hlet
  have hgit : ¬ site.gitSourced app = false := hgit
  cases hresolve : site.resolveCredential credential with
  | error text => exact absurd ⟨text, hresolve⟩ hcred
  | ok Username =>
    refine ⟨Username, if message = "" then "Update " ++ path else message, ?_⟩
    simp [save, writeFileFiles, hagent, happ, hpath, htext, hlen, hresolve, hreach, Deployer.Commit, hgit,
      hroot, hbusy]

/-- A refused save changes nothing. -/
theorem save_refused {text message credential : String} (hroot : d.Root app = some root)
    (htext : contentBytes text = resaved bs) (h : Refused site d app path credential bs) :
    (save site d pre agent app path false ⟨text, message, credential⟩).2 = checkout d.disk pre := by
  unfold save writeFileFiles
  rw [htext]
  by_cases hnames : agent = "" ∨ app = ""
  · simp [hnames]
  by_cases hpath : path = ""
  · simp [hnames, hpath]
  by_cases hlen : maxCommitBytes < (resaved bs).length
  · simp [hnames, hpath, hlen]
  cases hresolve : site.resolveCredential credential with
  | error text => simp [hnames, hpath, hlen]
  | ok Username =>
    cases hreach : site.unreachable with
    | some text => simp [hnames, hpath, hlen]
    | none =>
      simp only [if_neg hnames, if_neg hpath, if_neg hlen, Deployer.Commit, hroot]
      split
      · rfl
      · split
        · rfl
        · rename_i hgit hbusy
          have hearly : ¬ Captured site.world .edit path "" := by
            simp only [Refused, hpath, hlen, hresolve, hreach, hgit, hbusy] at h
            simpa using h
          obtain ⟨text, heq⟩ := @mutateAndPush_early d.disk root site.world pre Username .edit path ""
            (resaved bs) (if message = "" then "Update " ++ path else message) hearly
          exact congrArg Prod.snd heq

/-- **A file that is viewed as text and saved as it is keeps its bytes exactly when the save is
refused, or goes through and the file is UTF-8, or fails and is rolled back to the same bytes.** -/
theorem resaved_iff (site : Site) (d : Deployer) (pre : Repo) (agent app path message credential : String)
    (fault : Option String) (root full : List String) (bs : List UInt8) (dto : FileContentDTO)
    (hroot : d.Root app = some root) (hfull : confine d.disk root path = .ok full)
    (hfile : d.disk.node full = some (.file bs))
    (hview : readFileFiles agent app (readOp d app path fault) = .ok dto)
    (htruncated : dto.Truncated = false) (hbinary : dto.Binary = false) :
    (save site d pre agent app path false ⟨dto.Content, message, credential⟩).2.files full =
        some (.file bs) ↔ Stays site d pre app path credential full bs := by
  obtain ⟨hagent, happ, htext⟩ := view_content hroot hfull hfile hview htruncated hbinary
  unfold Stays
  by_cases hrefused : Refused site d app path credential bs
  · rw [save_refused hroot htext hrefused]
    simp [Disk.files, hfile, hrefused]
  · obtain ⟨Username, message', heq⟩ := @save_eq site d pre agent app path root bs dto.Content message credential
      hroot hagent happ htext hrefused
    have hcaptured : Captured site.world .edit path "" := by
      by_contra hearly
      exact hrefused (.inr (.inr (.inr (.inr (.inr (.inr hearly))))))
    rw [heq, edit_stays_iff hfull hfile (full_ne_nil hroot hfull hfile) hcaptured]
    simp [hrefused]

/-- An app's clone with one tracked file. -/
def notesPath : List String := ["home", "marshal", "deploys", "web", "notes"]

def notes (bs : List UInt8) : Deployer := ⟨homeDeploys, Disk.ofLeaves [(notesPath, .file bs)], ∅⟩

def notesTree (bs : List UInt8) (p : List String) : Option Node :=
  if p = notesPath then some (.file bs) else none

def notesRepo (bs : List UInt8) : Repo := ⟨notesTree bs, ⟨⟨"c0", "", "", ""⟩, notesTree bs⟩⟩

/-- Nothing fails. -/
def calm : Site where
  resolveCredential _ := .ok ""
  unreachable := none
  gitSourced _ := true
  world :=
    { branch := some "main", revParse := true, mkdir := true, write := .done, paths := fun _ => true,
      staged := true, mv := true, commit := some "c1", credential := true, push := true, head := true }

/-- UTF-8 stays. -/
theorem resaved_utf8 :
    (save calm (notes [0xC3, 0xA9, 0x0A]) (notesRepo [0xC3, 0xA9, 0x0A]) "east" "web" "notes" false
      ⟨"é\n", "", ""⟩).2.files notesPath = some (.file [0xC3, 0xA9, 0x0A]) :=
  (resaved_iff calm (notes [0xC3, 0xA9, 0x0A]) (notesRepo [0xC3, 0xA9, 0x0A]) "east" "web" "notes" "" "" none
    ["home", "marshal", "deploys", "web"] notesPath [0xC3, 0xA9, 0x0A] ⟨"notes", "é\n", 3, false, false⟩
    (by decide) (by decide) (by decide) (by decide) rfl rfl).mpr
    (.inr (.inl ⟨⟨rfl, rfl, rfl, rfl, rfl⟩, by decide⟩))

/-- Latin-1 is shown as text, and does not. -/
theorem resaved_latin1 :
    readFileFiles "east" "web" (readOp (notes [0xE9, 0x0A]) "web" "notes" none) =
        .ok ⟨"notes", "\uFFFD\n", 2, false, false⟩ ∧
      (save calm (notes [0xE9, 0x0A]) (notesRepo [0xE9, 0x0A]) "east" "web" "notes" false
        ⟨"\uFFFD\n", "", ""⟩).2.files notesPath = some (.file [0xEF, 0xBF, 0xBD, 0x0A]) ∧
      (save calm (notes [0xE9, 0x0A]) (notesRepo [0xE9, 0x0A]) "east" "web" "notes" false
        ⟨"\uFFFD\n", "", ""⟩).2.files notesPath ≠ some (.file [0xE9, 0x0A]) := by
  have hview : readFileFiles "east" "web" (readOp (notes [0xE9, 0x0A]) "web" "notes" none) =
      .ok ⟨"notes", "\uFFFD\n", 2, false, false⟩ := by decide
  have hsaved : (save calm (notes [0xE9, 0x0A]) (notesRepo [0xE9, 0x0A]) "east" "web" "notes" false
      ⟨"\uFFFD\n", "", ""⟩).2.files notesPath = some (.file [0xEF, 0xBF, 0xBD, 0x0A]) := by decide
  exact ⟨hview, hsaved, by rw [hsaved]; decide⟩

end Marshal.Dashboard.Files
