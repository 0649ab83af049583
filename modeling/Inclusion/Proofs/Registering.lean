import Inclusion.Proofs.Memory
import Inclusion.Proofs.Reopening

/-!
# What a call leaves registered

Including or excluding a module writes the projects that the workspace knows into the settings file,
with the module or without it, whatever the file registers by then. So what somebody else registered
since the last look at the file is dropped, and what somebody else dropped is registered again.

* `flatMap_linePieces_enforceAll`: enforcing the policy never changes what the settings say.
* `mem_registered_of_called`: the projects that are registered after a call, and when these are the
  ones that were registered before it.
-/
namespace Inclusion

open Text BuildFile Settings

/-! ### Restated lines say nothing of settings -/

theorem isUnbroken_of_isWord {text : String} (h : IsWord text) : IsUnbroken text :=
  ⟨not_mem_of_isMark (isMark_of_all_isDottedChar h.2) (by decide),
    not_mem_of_isMark (isMark_of_all_isDottedChar h.2) (by decide)⟩

/-- The coordinates of a statement, with a group that breaks no line if those of the modules do not.
-/
theorem exists_statementFor {modules : NameMap Manifest.Module} {wanted : Dependency}
    (htitled : Titled modules)
    (hgroups : ∀ name u, modules.get? name = some u → IsUnbroken u.group)
    (hspelled : Spelled wanted) :
    ∃ group, IsUnbroken group ∧ statementFor modules wanted = wanted.declare group wanted.name := by
  have hown : IsUnbroken (wanted.group.getD "") :=
    hspelled.getD_group ⟨by simp, by simp⟩ fun _ => isUnbroken_of_isWord
  exact ⟨_, groupFor_of hgroups fun _ => hown, statementFor_eq htitled wanted⟩

/-- Restating lines keeps what they say of settings, whatever is known of the names on them. -/
theorem flatMap_linePieces_restateText {policy : Policy} {known : Dependencies} {text : String}
    (htitled : Titled policy.modules)
    (hgroups : ∀ name u, policy.modules.get? name = some u → IsUnbroken u.group)
    (hknown : Versed known) :
    (splitLines (restateText (Node.desired policy known) policy.modules text)).flatMap linePieces
      = (splitLines text).flatMap linePieces := by
  have hline : ∀ {line new : String},
      restated? (Node.desired policy known) policy.modules line = some new →
      linePieces new = linePieces line ∧ ('\n' ∉ line.toList → '\n' ∉ new.toList) := by
    intro line new hnew
    obtain ⟨found, wanted, hread, hwanted, -, rfl⟩ := restated?_eq_some_iff.mp hnew
    obtain ⟨hname, hspelled⟩ := hknown.desired policy _ _ hwanted
    obtain ⟨group, hgroup, hstatement⟩ := exists_statementFor htitled hgroups hspelled
    have hproject : IsProjectName wanted.name := hname ▸ (Legible.of_ofLine? hread).isProjectName
    rw [hstatement, linePieces_of_ofLine? hread]
    refine ⟨linePieces_restate_declare line hspelled hproject hgroup.1, fun hfeed => ?_⟩
    exact lineFeed_not_mem_restate hfeed
      (not_mem_declare (by decide) (by decide) hspelled hproject fun _ => hgroup.2)
  rw [restateText, flatMap_splitLines_joinLines linePieces_empty, restateAll_fst, List.flatMap_map]
  · refine List.flatMap_congr fun line _ => ?_
    cases hrestated : restated? (Node.desired policy known) policy.modules line with
    | none => rfl
    | some new => exact (hline hrestated).1
  · rw [restateAll_fst]
    intro line' hline'
    obtain ⟨line, hmem, rfl⟩ := List.mem_map.mp hline'
    have hfeed := lineFeed_not_mem_of_mem_splitLines hmem
    cases hrestated : restated? (Node.desired policy known) policy.modules line with
    | none => exact hfeed
    | some new => exact (hline hrestated).2 hfeed

namespace Workspace

variable {base : Path} {config : Config} {w w' : Workspace} {s s' : Shelf}

/-! ### Passes over the nodes -/

/-- Whether modules are listed under their own names and all that nodes know was spelled on some
line. -/
structure WellRead (w : Workspace) : Prop where
  titled : Titled w.modules
  known : ∀ name n, w.nodes.get? name = some n → Versed n.all

theorem wellRead_survey {σ : Type} [Store σ] (h : w.Sound) (store : σ) (keep : Bool) :
    (w.survey store keep).WellRead where
  titled := by
    rw [modules_survey]
    exact fun _ _ hu => (of_get?_listing hu).1
  known name n hn := all_of_survey h hn ▸ versed_declared _

theorem versed_of_restyled {policy : Policy} {n n' : Node} (h : Node.Restyled policy n n')
    (hn : Versed n.all) : Versed n'.all := by
  rcases h.all with hall | hall
  · exact hall ▸ hn
  · exact hall ▸ hn.desired policy

theorem WellRead.of_restyled {policy : Policy} (h : w.WellRead) (hmodules : w'.modules = w.modules)
    (hnodes : ∀ k, Option.Rel (Node.Restyled policy) (w.nodes.get? k) (w'.nodes.get? k)) :
    w'.WellRead where
  titled := hmodules ▸ h.titled
  known k n' hn' := by
    obtain ⟨n, hn, hstyle⟩ := exists_of_rel_right (hn' ▸ hnodes k)
    exact versed_of_restyled hstyle (h.known k n hn)

theorem WellRead.comply {σ : Type} [Store σ] (h : w.WellRead) (store : σ) :
    (w.comply store).1.WellRead :=
  h.of_restyled (modules_comply w store) (restyled_enforceAll w store w.visitOrder)

theorem WellRead.enforceOn {σ : Type} [Store σ] (h : w.WellRead) (store : σ) (name : String) :
    (w.enforceOn store name).1.WellRead :=
  h.of_restyled (enforceOn_modules w store name) (restyled_enforceOn w store name)

theorem lasting_wellRead : Lasting WellRead where
  comply _ store hw := hw.comply store
  settings _ _ _ hw := ⟨hw.titled, hw.known⟩
  included _ _ hw := ⟨hw.titled, hw.known⟩

theorem Reachable.wellRead (h : Reachable base config w s) : w.WellRead :=
  h.arises.induct_fits (fun _ store keep hfits => wellRead_survey hfits.sound store keep)
    lasting_wellRead.comply lasting_wellRead.includeModule lasting_wellRead.excludeModule

/-- Whether no group of a module breaks the lines of a file apart, should a node have it for its build
file. -/
def Harmless (w : Workspace) (path : Path) : Prop :=
  (∃ k, w.IsAt k path.location) → ∀ name u, w.modules.get? name = some u → IsUnbroken u.group

theorem flatMap_linePieces_enforceOn (h : w.WellRead) {path : Path} (hharmless : w.Harmless path)
    (s : Shelf) (name : String) :
    (linesAt (w.enforceOn s name).2 path).flatMap linePieces
      = (linesAt s path).flatMap linePieces := by
  unfold Workspace.enforceOn
  split
  next => rfl
  next n hn =>
    rw [linesAt_eq, linesAt_eq]
    dsimp only [Shelf.text?]
    rw [Node.textAt_enforce]
    split
    next hl =>
      have hgroups := hharmless ⟨name, n, hn, hl.symm⟩
      cases s.textAt path.location with
      | none => rfl
      | some text =>
        simp only [Option.map_some, Option.getD_some]
        exact flatMap_linePieces_restateText h.titled hgroups (h.known name n hn)
    next => rfl

/-- Enforcing the policy never changes what the settings say. -/
theorem flatMap_linePieces_enforceAll (h : w.WellRead) {path : Path} (hharmless : w.Harmless path)
    (s : Shelf) (names : List String) :
    (linesAt (w.enforceAll s names).2 path).flatMap linePieces
      = (linesAt s path).flatMap linePieces := by
  induction names generalizing w s with
  | nil => rfl
  | cons name names ih =>
    have hnext : (w.enforceOn s name).1.Harmless path := by
      rintro ⟨k, hk⟩
      rw [enforceOn_modules]
      exact hharmless ⟨k, isAt_enforceOn.mp hk⟩
    have hrest := ih (h.enforceOn s name) hnext (w.enforceOn s name).2
    exact hrest.trans (flatMap_linePieces_enforceOn h hharmless s name)

/-! ### Calls -/

/-- The projects that the lines of the settings file register. -/
def registered (w : Workspace) (s : Shelf) : List String :=
  (Snapshot.ofLines (linesAt s w.settings.path)).all

/-- A call that includes a module, or excludes it, and succeeds. A module that is included has a name
and a directory that a settings file can give. -/
inductive Called (w : Workspace) (s : Shelf) (name : String) : Bool → Workspace → Shelf → Prop
  | included {w' : Workspace} {s' : Shelf} {u : Manifest.Module}
    (hu : w.modules.get? name = some u) (hname : IsProject name)
    (hpath : IsUnbroken (w.base.resolve u.path).text)
    (h : w.includeModule s name = (.ok (), w', s')) : Called w s name true w' s'
  | excluded {w' : Workspace} {s' : Shelf} (h : w.excludeModule s name = (.ok (), w', s')) :
    Called w s name false w' s'

/-- Whether the lines that the editor leaves alone register no project that a snapshot does not. -/
def Quiet (snapshot : Snapshot) (lines : List String) : Prop :=
  ∀ k, k ∈ leftNames snapshot false (blocks lines)
      ∨ (lastBinding? snapshot (blocks lines) k).isSome = true → k ∈ snapshot.all

/-- Enforcing the policy after an edit of the settings leaves them as the edit made them. -/
theorem comply_of_editSettings (hwell : w.WellRead) (hharmless : w.Harmless w.settings.path)
    {edit : Snapshot → Snapshot} {v : Workspace} {t : Shelf}
    (hedit : w.editSettings s edit = (.ok (), v, t)) (included : NameSet)
    (hcomply : ({ v with included } : Workspace).comply t = (w', s')) :
    w'.settings.snapshot = edit w.settings.snapshot
      ∧ (linesAt s' w.settings.path).flatMap linePieces
        = (linesAt t w.settings.path).flatMap linePieces := by
  obtain rfl : _ = w' := congrArg Prod.fst hcomply
  obtain rfl : _ = s' := congrArg Prod.snd hcomply
  obtain ⟨hv, -⟩ := of_editSettings hedit
  have hwell' : ({ v with included } : Workspace).WellRead := by
    rw [hv]; exact ⟨hwell.titled, hwell.known⟩
  have hharmless' : ({ v with included } : Workspace).Harmless w.settings.path := by
    rw [hv]; exact hharmless
  exact ⟨by rw [settings_comply, hv], flatMap_linePieces_enforceAll hwell' hharmless' t _⟩

/-- All that a call does to the settings: it edits the snapshot, and the file says what the editor
makes of it. -/
theorem Called.exists_edit {name : String} {present : Bool} (h : Called w s name present w' s')
    (hwell : w.WellRead) (hharmless : w.Harmless w.settings.path)
    (hwritable : w.settings.snapshot.Writable IsUnbroken) :
    w'.settings.snapshot.Writable IsUnbroken
      ∧ (∀ k, k ∈ w'.settings.snapshot.all
        ↔ if k = name then present = true else k ∈ w.settings.snapshot.all)
      ∧ (linesAt s' w.settings.path).flatMap linePieces
        = (reconcile (linesAt s w.settings.path) w'.settings.snapshot).flatMap linePieces := by
  cases h with
  | @included _ _ u hu hname hpath h =>
    obtain rfl := hwell.titled name u hu
    obtain ⟨v, t, hedit, hcomply⟩ := of_includeModule hu h
    have hs := hwritable.addExternal hname hpath
    obtain ⟨hsnapshot, hpieces⟩ := comply_of_editSettings hwell hharmless hedit _ hcomply
    refine ⟨hsnapshot ▸ hs, fun k => ?_,
      hsnapshot ▸ hpieces.trans (linesAt_editSettings hedit hs).1⟩
    rw [hsnapshot, Snapshot.addExternal, mem_addNew]
    by_cases hk : k = u.name <;> simp [hk]
  | excluded h =>
    obtain ⟨u, v, t, hu, hedit, hcomply⟩ := of_excludeModule h
    obtain rfl := hwell.titled name u hu
    have hs := hwritable.remove u.name
    have hall : ∀ k, k ∈ (w.settings.snapshot.remove u.name).all
        ↔ if k = u.name then false = true else k ∈ w.settings.snapshot.all := fun k => by
      by_cases hk : k = u.name <;> simp [Snapshot.remove, hk]
    obtain ⟨hsnapshot, hpieces⟩ : w'.settings.snapshot = w.settings.snapshot.remove u.name
        ∧ (linesAt s' w.settings.path).flatMap linePieces
          = (linesAt t w.settings.path).flatMap linePieces := by
      rcases hcomply with hcomply | ⟨-, rfl, rfl⟩
      · exact comply_of_editSettings hwell hharmless hedit _ hcomply
      · exact ⟨by rw [(of_editSettings hedit).1], rfl⟩
    exact ⟨hsnapshot ▸ hs, hsnapshot ▸ hall,
      hsnapshot ▸ hpieces.trans (linesAt_editSettings hedit hs).1⟩

/-- After a call, the settings register the projects that the workspace knew, with the module if it
was included and without it if it was excluded. These are the ones that the file registered when the
call came, but for the module, exactly if the workspace knew just those. -/
theorem mem_registered_of_called (h : Reachable base config w s) {name : String} {present : Bool}
    (hcalled : Called w s name present w' s')
    (hwritable : w.settings.snapshot.Writable IsUnbroken)
    (hquiet : Quiet w'.settings.snapshot (linesAt s w.settings.path))
    (hharmless : w.Harmless w.settings.path) :
    (∀ k, k ∈ w.registered s'
        ↔ if k = name then present = true else k ∈ w.settings.snapshot.all)
      ∧ ((∀ k, k ∈ w.registered s' ↔ if k = name then present = true else k ∈ w.registered s)
        ↔ ∀ k, k ≠ name → (k ∈ w.settings.snapshot.all ↔ k ∈ w.registered s)) := by
  obtain ⟨hs, hall, hpieces⟩ := hcalled.exists_edit h.wellRead hharmless hwritable
  have hregistered : ∀ k, k ∈ w.registered s'
      ↔ if k = name then present = true else k ∈ w.settings.snapshot.all := fun k => by
    rw [registered, ofLines_congr hpieces, mem_all_reconcile hs, ← hall]
    exact ⟨fun hk => hk.elim id (hquiet k), .inl⟩
  refine ⟨hregistered, fun hkept k hk => ?_, fun hknown k => ?_⟩
  · have hk' := (hregistered k).symm.trans (hkept k)
    rwa [if_neg hk, if_neg hk] at hk'
  · rw [hregistered]
    split
    next => rfl
    next hk => exact hknown k hk

/-! ### A settings file that is edited between two calls -/

/-- The shelf with just a settings file. -/
def settingsOnly (text : String) : Shelf := .ofFiles [("/ws/settings.gradle", text)]

/-- A workspace with one module that has read such a file. -/
def opened (u : Manifest.Module) (text : String) : Workspace :=
  (ofManifest (settingsOnly text) ⟨"/ws"⟩ {} { name := "d", modules := [u] }).1

theorem reachable_opened (u : Manifest.Module) (text : String) (s : Shelf) :
    Reachable ⟨"/ws"⟩ {} (opened u text) s := .edit (.ofManifest (settingsOnly text) _) s

theorem settingsPath_opened (u : Manifest.Module) :
    settingsPath ⟨"/ws"⟩ {} { name := "d", modules := [u] } = ⟨"/ws/settings.gradle"⟩ := by
  change (Path.resolve ⟨"/ws"⟩ "").join "settings.gradle" = _
  decide

theorem path_opened (u : Manifest.Module) (text : String) :
    (opened u text).settings.path = ⟨"/ws/settings.gradle"⟩ := by
  rw [← settingsPath_opened u]
  exact settings_path_update _ _ false

theorem linesAt_settingsOnly (text : String) :
    linesAt (settingsOnly text) ⟨"/ws/settings.gradle"⟩ = splitLines text := by
  rw [settingsOnly, Shelf.ofFiles, List.foldl_cons, List.foldl_nil, linesAt_put]
  exact if_pos rfl

theorem snapshot_opened (u : Manifest.Module) (text : String) :
    (opened u text).settings.snapshot = .ofLines (splitLines text) := by
  have hsettings := settings_comply
    (found ⟨"/ws"⟩ {} { name := "d", modules := [u] } (settingsOnly text)) (settingsOnly text)
  have hsnapshot := congrArg SettingsFile.snapshot hsettings
  rw [snapshot_found, settingsPath_opened, linesAt_settingsOnly] at hsnapshot
  exact hsnapshot

theorem get?_modules_opened (u : Manifest.Module) (text : String) (name : String) :
    (opened u text).modules.get? name = if name = u.name then some u else none := by
  have hmodules : (opened u text).modules = .ofList [(u.name, u)] :=
    (modules_comply _ _).trans (modules_survey _ _ false)
  rw [hmodules, NameMap.get?_ofList, List.reverse_singleton, NameMap.lookup_cons]
  rfl

theorem base_opened (u : Manifest.Module) (text : String) : (opened u text).base = ⟨"/ws"⟩ :=
  (reachable_opened u text Shelf.empty).fits.base

theorem harmless_opened {u : Manifest.Module} (text : String) (h : IsUnbroken u.group) :
    (opened u text).Harmless (opened u text).settings.path := by
  intro _ name v hv
  rw [get?_modules_opened] at hv
  split at hv
  · cases hv; exact h
  · cases hv

theorem read_settingsOnly (u : Manifest.Module) (text text' : String) :
    Store.read (settingsOnly text') (opened u text).settings.path = .ok (splitLines text') := by
  rw [path_opened]
  refine Shelf.read_eq_ok_iff.mpr ⟨text', ?_, rfl⟩
  rw [settingsOnly, Shelf.ofFiles, List.foldl_cons, List.foldl_nil, Shelf.text?_put]
  exact if_pos rfl

theorem snapshot_includeModule {name : String} {u : Manifest.Module}
    (hu : w.modules.get? name = some u) (h : w.includeModule s name = (.ok (), w', s')) :
    w'.settings.snapshot
      = w.settings.snapshot.addExternal u.name (w.base.resolve u.path).text := by
  obtain ⟨v, t, hedit, hcomply⟩ := of_includeModule hu h
  obtain rfl : _ = w' := congrArg Prod.fst hcomply
  rw [settings_comply, (of_editSettings hedit).1]

/-- An edit from outside that registers nothing new is kept. -/
theorem mem_registered_of_called_comment :
    ∃ w s w' s', Reachable ⟨"/ws"⟩ {} w s ∧ w.includeModule s "core" = (.ok (), w', s')
      ∧ (∀ k, k ∈ w.registered s'
        ↔ if k = "core" then true = true else k ∈ w.settings.snapshot.all)
      ∧ ((∀ k, k ∈ w.registered s' ↔ if k = "core" then true = true else k ∈ w.registered s)
        ↔ ∀ k, k ≠ "core" → (k ∈ w.settings.snapshot.all ↔ k ∈ w.registered s)) := by
  let u : Manifest.Module := ⟨"core", "core", "g"⟩
  let text := "include ':app'\n"
  let text' := "include ':app'\n// done\n"
  have hu := get?_modules_opened u text "core"
  obtain ⟨w', s', hinclude⟩ := exists_includeModule hu (read_settingsOnly u text text')
  have hpath : IsUnbroken ((opened u text).base.resolve u.path).text := by
    rw [base_opened]; decide
  have hsnapshot := snapshot_includeModule hu hinclude
  rw [snapshot_opened, base_opened] at hsnapshot
  have hlines : linesAt (settingsOnly text') (opened u text).settings.path = splitLines text' :=
    linesAt_of_read (read_settingsOnly u text text')
  have hleft : leftNames w'.settings.snapshot false (blocks (splitLines text')) = []
      ∧ (blocks (splitLines text')).flatMap (Block.bindings w'.settings.snapshot) = [] := by
    rw [hsnapshot]
    decide +kernel
  obtain ⟨hregistered, hkept⟩ := mem_registered_of_called
    (reachable_opened u text (settingsOnly text'))
    (.included hu (by decide) hpath hinclude)
    (by rw [snapshot_opened]; exact (writable_ofLines _).unbroken)
    (by rw [hlines]; intro k hk; simp [lastBinding?, hleft] at hk)
    (harmless_opened text (by decide))
  exact ⟨_, _, w', s', reachable_opened u text _, hinclude, hregistered, hkept⟩

/-- Whether a module can be included, but other projects are registered afterwards than before and the
module. -/
def Misregisters (w : Workspace) (s : Shelf) (name : String) : Prop :=
  Reachable w.base w.config w s ∧ ∃ w' s', w.includeModule s name = (.ok (), w', s')
    ∧ ¬∀ k, k ∈ w.registered s' ↔ k ∈ w.registered s ∨ k = name

theorem misregisters_opened {u : Manifest.Module} {text text' : String} (k : String)
    (hgroup : IsUnbroken u.group)
    (hk : ¬(k ∈ (Snapshot.ofLines (splitLines (joinLines (reconcile (splitLines text')
          ((Snapshot.ofLines (splitLines text)).addExternal u.name
            (Path.resolve ⟨"/ws"⟩ u.path).text))))).all
        ↔ k ∈ (Snapshot.ofLines (splitLines text')).all ∨ k = u.name)) :
    Misregisters (opened u text) (settingsOnly text') u.name := by
  have hu := (get?_modules_opened u text u.name).trans (if_pos rfl)
  have hread := read_settingsOnly u text text'
  obtain ⟨w', s', hinclude⟩ := exists_includeModule hu hread
  have hreachable := reachable_opened u text (settingsOnly text')
  refine ⟨hreachable.fits.base ▸ hreachable.fits.config ▸ hreachable, w', s', hinclude,
    fun hall => hk ?_⟩
  obtain ⟨v, t, hedit, hcomply⟩ := of_includeModule hu hinclude
  obtain ⟨-, hpieces⟩ :=
    comply_of_editSettings hreachable.wellRead (harmless_opened text hgroup) hedit _ hcomply
  have hk' := hall k
  rwa [registered, registered, ofLines_congr hpieces, linesAt_of_editSettings hedit,
    linesAt_of_read hread, snapshot_opened, base_opened] at hk'

/-- What was registered from outside is dropped, what was dropped from outside is registered again,
and a name that no settings file can give is not registered at all. -/
theorem misregisters_edited :
    Misregisters (opened ⟨"core", "core", "g"⟩ "include ':app'\n")
        (settingsOnly "include ':app', ':tools'\n") "core"
      ∧ Misregisters (opened ⟨"core", "core", "g"⟩ "include ':app', ':tools'\n")
        (settingsOnly "include ':app'\n") "core"
      ∧ Misregisters (opened ⟨"my core", "core", "g"⟩ "include ':app'\n")
        (settingsOnly "include ':app'\n") "my core" := by
  refine ⟨misregisters_opened "tools" ?_ ?_, misregisters_opened "tools" ?_ ?_,
    misregisters_opened "my core" ?_ ?_⟩
  all_goals decide +kernel

end Workspace

end Inclusion
