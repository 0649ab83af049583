import Inclusion.Proofs.Convergence
import Inclusion.Proofs.TurningBack

/-!
# A module that is included and excluded again

Including a module edits the settings file and enforces the policy; excluding it does both once more.
Each time a build file is restated from what its nodes remember, and the settings file is edited from
what was registered. A settings file that is a build file too is edited, restated, edited back and
restated again.

* `of_include_exclude`, `exists_include_exclude`: what is done, and when it is done.
* `Detour.linesAt_of_not_settings`: what becomes of the other build files.
* `Detour.linesAt_settings`: the settings file comes back.
-/
namespace Inclusion

open Text Settings BuildFile

namespace Workspace

variable {base : Path} {config : Config} {w w' : Workspace} {s : Shelf} {path : Path}

/-! ### Two passes -/

/-- Whether the policy is enforced on a node with this build file. -/
def Enforces (w : Workspace) (path : Path) : Prop :=
  ∃ name, w.IsMet name ∧ w.IsAt name path.location

theorem isAt_iff_shape {name : String} {l : List Path.Step} :
    w.IsAt name l ↔ (w.shape.get? name).map (·.path.location) = some l := by
  rw [isAt_iff, get?_shape, Option.map_map]
  rfl

theorem SameGraph.isMet_iff (h : w.SameGraph w') (name : String) :
    w'.IsMet name ↔ w.IsMet name := by
  rw [IsMet, IsMet, h.edges, h.roots, inside_congr h.shape h.included]

theorem SameGraph.isAt_iff (h : w.SameGraph w') {name : String} {l : List Path.Step} :
    w'.IsAt name l ↔ w.IsAt name l := by
  rw [isAt_iff_shape, isAt_iff_shape, h.shape]

theorem SameGraph.enforces_iff (h : w.SameGraph w') : w'.Enforces path ↔ w.Enforces path := by
  simp only [Enforces, h.isMet_iff, h.isAt_iff]

theorem sameGraph_comply (w : Workspace) (s : Shelf) : w.SameGraph (w.comply s).1 :=
  ⟨shape_comply w s, edgesOf_comply w s, roots_comply w s, included_comply w s⟩

/-- With more modules included, the policy is enforced on no fewer nodes. -/
theorem Enforces.mono (h : w.Enforces path) {included : NameSet}
    (hincluded : ∀ name, w.included.contains name = true → included.contains name = true) :
    ({ w with included } : Workspace).Enforces path := by
  have hinside : ∀ name, w.inside name = true →
      ({ w with included } : Workspace).inside name = true := fun name hin => by
    obtain ⟨n, hn, horigin⟩ := inside_iff.mp hin
    exact inside_iff.mpr ⟨n, hn, horigin.imp_right (hincluded name)⟩
  obtain ⟨name, hmet, hat⟩ := h
  exact ⟨name, Met.mono (fun _ hqueue hin => .start hqueue (hinside _ hin)) hinside hmet, hat⟩

theorem linesAt_comply_of_enforces {known : Dependencies} (hmodules : Nameable w.modules)
    (hknows : w.Knows path.location known) (hcovers : Covers w.modules known (linesAt s path))
    (h : w.Enforces path) :
    linesAt (w.comply s).2 path
      = (restateAll (Node.desired w.policy known) w.policy.modules (linesAt s path)).1 := by
  rw [linesAt_comply_of_shares hmodules hknows.shares hcovers]
  exact if_pos h

theorem linesAt_comply_of_not_enforces (h : ¬w.Enforces path) :
    linesAt (w.comply s).2 path = linesAt s path := by
  have htext := textAt_comply_of_not_isAt (fun name hmet hat => h ⟨name, hmet, hat⟩) s
  rw [linesAt_eq, linesAt_eq, Shelf.text?, Shelf.text?, htext]

theorem linesAt_eq_of_text? {s s' : Shelf} (h : s'.text? path = s.text? path) :
    linesAt s' path = linesAt s path := by
  rw [linesAt_eq, h, linesAt_eq]

theorem text?_eq_of_linesAt {s s' : Shelf} (h : linesAt s' path = linesAt s path) :
    s'.text? path = s.text? path := by
  rw [linesAt_eq, linesAt_eq] at h
  cases hold : s.text? path with
  | none =>
    cases hnew : s'.text? path with
    | none => rfl
    | some text => simp [hold, hnew, splitLines_ne_nil] at h
  | some text =>
    cases hnew : s'.text? path with
    | none => simp [hold, hnew, (splitLines_ne_nil text).symm] at h
    | some text' =>
      rw [hold, hnew, Option.map_some, Option.map_some, Option.getD_some, Option.getD_some] at h
      rw [← joinLines_splitLines text, ← h, joinLines_splitLines]

theorem SameGraph.exists_node (h : w.SameGraph w') {name : String}
    (hn : (w.nodes.get? name).map (·.file.path) = some path) :
    ∃ n, w'.nodes.get? name = some n ∧ n.file.path = path := by
  have hshape : (w'.shape.get? name).map Shape.path = (w.shape.get? name).map Shape.path := by
    rw [h.shape]
  rw [get?_shape, get?_shape, Option.map_map, Option.map_map] at hshape
  exact Option.map_eq_some_iff.mp (hshape.trans hn)

theorem not_enforces_of_roots (h : ∀ name ∈ w.roots, w.inside name = false) :
    ¬w.Enforces path := by
  rintro ⟨name, hmet, -⟩
  induction hmet with
  | start hqueue hinside => simp [h _ hqueue] at hinside
  | edge _ _ _ ih => exact ih

/-! ### Including and excluding -/

/-- A workspace that has taken a module in but has not enforced its policy yet. -/
def enlist (w : Workspace) (u : Manifest.Module) : Workspace :=
  { w with
    settings := { w.settings with
      snapshot := w.settings.snapshot.addExternal u.name (w.base.resolve u.path).text }
    included := NameSet.add w.included u.name }

/-- A workspace that has left a module out but has not enforced its policy yet. -/
def release (w : Workspace) (u : Manifest.Module) : Workspace :=
  { w with
    settings := { w.settings with snapshot := w.settings.snapshot.remove u.name }
    included := w.included.erase u.name }

/-- A workspace that took a module in, enforced its policy on some files and left the module out
again, but has not enforced its policy since. -/
def revert (w : Workspace) (u : Manifest.Module) (t : Shelf) : Workspace :=
  ((w.enlist u).comply t).1.release u

/-- What is done to the settings file when a module is included that was not and is excluded again: it
is edited and left as `t`, the policy is enforced, and it is edited again and left as `t'`. -/
structure Detour (w : Workspace) (s : Shelf) (u : Manifest.Module) (t t' : Shelf) : Prop where
  listed : w.modules.get? u.name = some u
  out : w.included.contains u.name = false
  add : ∃ v, w.editSettings s (·.addExternal u.name (w.base.resolve u.path).text) = (.ok (), v, t)
  remove : ∃ v, ((w.enlist u).comply t).1.editSettings ((w.enlist u).comply t).2 (·.remove u.name)
    = (.ok (), v, t')

variable {u : Manifest.Module} {t t' : Shelf}

theorem modules_revert : (w.revert u t).modules = w.modules := modules_comply (w.enlist u) t

theorem included_comply_enlist :
    ((w.enlist u).comply t).1.included = NameSet.add w.included u.name :=
  included_comply (w.enlist u) t

theorem sameGraph_enlist :
    ({ w with included := NameSet.add w.included u.name } : Workspace).SameGraph (w.enlist u) :=
  ⟨rfl, rfl, rfl, rfl⟩

theorem sameGraph_revert (hout : w.included.contains u.name = false) :
    w.SameGraph (w.revert u t) := by
  refine ⟨shape_comply (w.enlist u) t, edgesOf_comply (w.enlist u) t, roots_comply (w.enlist u) t,
    NameSet.ext fun other => ?_⟩
  rw [revert, release, included_comply_enlist, NameMap.contains_erase, NameSet.contains_add]
  by_cases hother : other = u.name
  · rw [hother, hout, bne_self_eq_false, Bool.false_and]
  · rw [bne_iff_ne.mpr hother, beq_eq_false_iff_ne.mpr hother, Bool.true_and, Bool.false_or]

theorem SameGraph.enlist (h : w.SameGraph w') : (w.enlist u).SameGraph (w'.enlist u) := by
  refine ⟨h.shape, h.edges, h.roots, ?_⟩
  rw [Workspace.enlist, Workspace.enlist, h.included]

theorem Knows.revert {l : List Path.Step} {known : Dependencies} (h : w.Knows l known) :
    (w.revert u t).Knows l known :=
  Knows.comply (w := w.enlist u) h t

theorem Enforces.enlist (h : w.Enforces path) : (w.enlist u).Enforces path :=
  sameGraph_enlist.enforces_iff.mpr <| h.mono fun name hname => by
    rw [NameSet.contains_add, hname, Bool.or_true]

theorem of_include_exclude {w₁ w₂ : Workspace} {s₁ s₂ : Shelf}
    (hu : w.modules.get? u.name = some u) (hout : w.included.contains u.name = false)
    (hinclude : w.includeModule s u.name = (.ok (), w₁, s₁))
    (hexclude : w₁.excludeModule s₁ u.name = (.ok (), w₂, s₂)) :
    ∃ t t', w.Detour s u t t' ∧ (w.enlist u).comply t = (w₁, s₁)
      ∧ (w.revert u t).comply t' = (w₂, s₂) := by
  obtain ⟨v, t, hadd, hcomply⟩ := of_includeModule hu hinclude
  rw [(of_editSettings hadd).1] at hcomply
  change (w.enlist u).comply t = _ at hcomply
  obtain rfl : _ = w₁ := congrArg Prod.fst hcomply
  obtain rfl : _ = s₁ := congrArg Prod.snd hcomply
  obtain ⟨u', v', t', hu', hremove, hcomply'⟩ := of_excludeModule hexclude
  obtain rfl : u = u' := Option.some.inj (hu.symm.trans ((modules_comply (w.enlist u) t) ▸ hu'))
  refine ⟨t, t', ⟨hu, hout, ⟨v, hadd⟩, ⟨v', hremove⟩⟩, rfl, ?_⟩
  rw [(of_editSettings hremove).1] at hcomply'
  refine hcomply'.resolve_right fun hkept => ?_
  have hin : ((w.enlist u).comply t).1.included.contains u.name = true := by
    rw [included_comply_enlist, NameSet.contains_add, beq_self_eq_true, Bool.true_or]
  exact absurd (hin.symm.trans hkept.1) (by decide)

/-- Where the settings file can be read, a module can be included and excluded again. -/
theorem exists_include_exclude (hu : w.modules.get? u.name = some u)
    (hread : (s.text? w.settings.path).isSome) :
    ∃ w₁ s₁ w₂ s₂, w.includeModule s u.name = (.ok (), w₁, s₁)
      ∧ w₁.excludeModule s₁ u.name = (.ok (), w₂, s₂) := by
  obtain ⟨t, hadd, hread'⟩ := exists_editSettings
    (·.addExternal u.name (w.base.resolve u.path).text) hread
  have hinclude : w.includeModule s u.name = (.ok (), (w.enlist u).comply t) := by
    simp only [includeModule, hu, hadd]
    rfl
  have hu' : ((w.enlist u).comply t).1.modules.get? u.name = some u := by
    rw [modules_comply]
    exact hu
  have hkept : (((w.enlist u).comply t).2.text?
      ((w.enlist u).comply t).1.settings.path).isSome := by
    rw [settings_comply]
    exact (isSome_textAt_comply (w.enlist u) t w.settings.path.location).trans hread'
  obtain ⟨t', hremove, -⟩ := exists_editSettings (·.remove u.name) hkept
  have hexclude : ∃ w₂ s₂, ((w.enlist u).comply t).1.excludeModule ((w.enlist u).comply t).2 u.name
      = (.ok (), w₂, s₂) := by
    simp only [excludeModule, hu', hremove]
    split <;> exact ⟨_, _, rfl⟩
  obtain ⟨w₂, s₂, hexclude⟩ := hexclude
  exact ⟨_, _, w₂, s₂, hinclude, hexclude⟩

/-- What is known of a build file after a pass that found these lines. -/
structure Rested (w : Workspace) (s : Shelf) (path : Path) (lines : List String) : Prop where
  knows : w.Knows path.location (declared lines)
  covers : Covers w.modules (declared lines) lines
  rest : w.Enforces path → linesAt s path
    = (restateAll (Node.desired w.policy (declared lines)) w.modules lines).1
  kept : ¬w.Enforces path → linesAt s path = lines

theorem Rested.covers_linesAt {lines : List String} (h : w.Rested s path lines)
    (hmodules : WellNamed w.modules) : Covers w.modules (declared lines) (linesAt s path) := by
  by_cases henforces : w.Enforces path
  · rw [h.rest henforces]
    exact covers_restateAll hmodules.nameable h.covers
  · rw [h.kept henforces]
    exact h.covers

theorem rested_comply (hmodules : WellNamed w.modules) (hfollows : w.Follows s s) {name : String}
    (hat : (w.comply s).1.IsAt name path.location) :
    (w.comply s).1.Rested (w.comply s).2 path (linesAt s path) := by
  obtain ⟨n, hn, hl⟩ := isAt_comply.mp hat
  have hcovers : Covers w.modules (declared (linesAt s path)) (linesAt s path) := by
    have := (hfollows name n hn).covers
    rwa [linesAt_of_same (show n.file.path.Same path from hl)] at this
  refine ⟨(hfollows.knows path).comply s, by rwa [modules_comply], fun henforces => ?_,
    fun hnot => ?_⟩
  · rw [policy_comply, modules_comply]
    exact linesAt_comply_of_enforces hmodules.nameable (hfollows.knows path) hcovers
      ((sameGraph_comply w s).enforces_iff.mp henforces)
  · exact linesAt_comply_of_not_enforces fun h => hnot ((sameGraph_comply w s).enforces_iff.mpr h)

section

variable {lines : List String} (hmodules : WellNamed w.modules) (hrested : w.Rested s path lines)

include hmodules hrested

/-- What becomes of a build file while a module is included. -/
theorem linesAt_comply_enlist (henforces : (w.enlist u).Enforces path)
    (hlines : (linesAt t path).filterMap Dependency.ofLine?
      = (linesAt s path).filterMap Dependency.ofLine?) :
    linesAt ((w.enlist u).comply t).2 path
      = (restateAll (Node.desired ⟨w.modules, NameSet.add w.included u.name⟩ (declared lines))
        w.modules (linesAt t path)).1 :=
  linesAt_comply_of_enforces (w := w.enlist u) hmodules.nameable hrested.knows
    ((hrested.covers_linesAt hmodules).congr hlines) henforces

/-- What becomes of a build file when the module is excluded again. -/
theorem linesAt_comply_revert (hout : w.included.contains u.name = false)
    (henforces : w.Enforces path)
    (hcovers : Covers w.modules (declared lines) (linesAt t' path)) :
    linesAt ((w.revert u t).comply t').2 path
      = (restateAll (Node.desired w.policy (declared lines)) w.modules (linesAt t' path)).1 := by
  have hmodules' : (w.revert u t).modules = w.modules := modules_revert
  have hpolicy : (w.revert u t).policy = w.policy := by
    rw [policy, modules_revert, (sameGraph_revert hout).included, policy]
  have hlines := linesAt_comply_of_enforces (hmodules'.symm ▸ hmodules.nameable)
    hrested.knows.revert (hmodules'.symm ▸ hcovers) ((sameGraph_revert hout).enforces_iff.mpr henforces)
  rwa [hpolicy, policy] at hlines

variable (h : w.Detour s u t t')

include h

/-- What becomes of a build file that is not the settings file. -/
theorem Detour.linesAt_of_not_settings (henforces : w.Enforces path)
    (hpath : ¬path.Same w.settings.path) :
    linesAt ((w.revert u t).comply t').2 path
      = (restateAll (Node.desired w.policy (declared lines)) w.modules
        (restateAll (Node.desired ⟨w.modules, NameSet.add w.included u.name⟩ (declared lines))
          w.modules (linesAt s path)).1).1 := by
  obtain ⟨v, hadd⟩ := h.add
  obtain ⟨v', hremove⟩ := h.remove
  have hadded : linesAt t path = linesAt s path :=
    linesAt_eq_of_text? (text?_editSettings hadd hpath)
  have hpath' : ¬path.Same ((w.enlist u).comply t).1.settings.path := by
    rwa [settings_comply]
  have hincluded := linesAt_comply_enlist hmodules hrested (henforces.enlist (u := u))
    (congrArg _ hadded)
  rw [hadded] at hincluded
  have hremoved : linesAt t' path = _ :=
    (linesAt_eq_of_text? (text?_editSettings hremove hpath')).trans hincluded
  have hcovers : Covers w.modules (declared lines) (linesAt t' path) := by
    rw [hremoved]
    exact (hrested.covers_linesAt hmodules).restateAll hmodules _
  rw [linesAt_comply_revert hmodules hrested h.out henforces hcovers, hremoved]

end

/-! ### The settings file -/

section

variable (h : w.Detour s u t t')
  (hsnapshot : w.settings.snapshot = .ofLines (linesAt s w.settings.path))
  (hnot : u.name ∉ (Snapshot.ofLines (linesAt s w.settings.path)).all)
  (hname : IsSegment u.name) (hdirectory : IsDirectory (w.base.resolve u.path).text)
  (hfixed : reconcile (linesAt s w.settings.path) (.ofLines (linesAt s w.settings.path))
    = linesAt s w.settings.path)

include h hsnapshot hnot

theorem Detour.linesAt_remove
    (hne : reconcile (linesAt ((w.enlist u).comply t).2 w.settings.path)
      (.ofLines (linesAt s w.settings.path)) ≠ []) :
    linesAt t' w.settings.path = reconcile (linesAt ((w.enlist u).comply t).2 w.settings.path)
      (.ofLines (linesAt s w.settings.path)) := by
  obtain ⟨v, hremove⟩ := h.remove
  have hremoved := linesAt_of_editSettings_of_ne_nil hremove
  have hsettings : ((w.enlist u).comply t).1.settings = (w.enlist u).settings :=
    settings_comply (w.enlist u) t
  have hback : (w.enlist u).settings.snapshot.remove u.name
      = .ofLines (linesAt s w.settings.path) := by
    rw [enlist, hsnapshot]
    exact Snapshot.remove_addExternal (mentions_ofLines hnot) _
  rw [hsettings, hback] at hremoved
  exact hremoved (writable_ofLines _).unbroken.oneLine hne

include hname hdirectory hfixed

theorem Detour.linesAt_add :
    linesAt t w.settings.path = reconcile (linesAt s w.settings.path)
      ((Snapshot.ofLines (linesAt s w.settings.path)).addExternal u.name
        (w.base.resolve u.path).text) := by
  obtain ⟨v, hadd⟩ := h.add
  have hmore := (writable_ofLines (linesAt s w.settings.path)).unbroken.addExternal hname.isProject
    hdirectory.isUnbroken
  have hadded := linesAt_of_editSettings_of_ne_nil hadd (hsnapshot ▸ hmore.oneLine)
    (hsnapshot ▸ reconcile_ofLines_addExternal_ne_nil hnot hfixed)
  rwa [hsnapshot] at hadded

theorem Detour.linesAt_comply_enlist_settings {lines : List String} (hmodules : WellNamed w.modules)
    (hrested : w.Rested s w.settings.path lines)
    (henforces : (w.enlist u).Enforces w.settings.path) :
    linesAt ((w.enlist u).comply t).2 w.settings.path
      = (restateAll (Node.desired ⟨w.modules, NameSet.add w.included u.name⟩ (declared lines))
        w.modules (reconcile (linesAt s w.settings.path)
          ((Snapshot.ofLines (linesAt s w.settings.path)).addExternal u.name
            (w.base.resolve u.path).text))).1 := by
  have hadded := h.linesAt_add hsnapshot hnot hname hdirectory hfixed
  have hmore := (writable_ofLines (linesAt s w.settings.path)).unbroken.addExternal hname.isProject
    hdirectory.isUnbroken
  rw [linesAt_comply_enlist hmodules hrested henforces
    (hadded ▸ filterMap_ofLine?_reconcile hmore.oneLine _), hadded]

/-- A settings file that is in line with what it says comes back as it was, be it that no node which is
met while the module is included has it for a build file, or that its declaration of the module
comes back too. -/
theorem Detour.linesAt_settings (hmodules : WellNamed w.modules)
    (hbuild : (w.enlist u).Enforces w.settings.path → w.Enforces w.settings.path
      ∧ DeclaresOnce u (linesAt s w.settings.path)
      ∧ ∃ lines, w.Rested s w.settings.path lines) :
    linesAt ((w.revert u t).comply t').2 w.settings.path = linesAt s w.settings.path := by
  have hne : linesAt s w.settings.path ≠ [] := by
    obtain ⟨v, hadd⟩ := h.add
    obtain ⟨text, -, htext⟩ := Shelf.read_eq_ok_iff.mp (read_of_editSettings hadd)
    exact htext ▸ splitLines_ne_nil text
  have hremoved := h.linesAt_remove hsnapshot hnot
  by_cases henforces : (w.enlist u).Enforces w.settings.path
  · obtain ⟨hbefore, honce, lines, hrested⟩ := hbuild henforces
    have hcovers := hrested.covers_linesAt hmodules
    have hrestates := hcovers.restates hmodules (NameSet.add w.included u.name)
    have hincluded := h.linesAt_comply_enlist_settings hsnapshot hnot hname hdirectory hfixed
      hmodules hrested henforces
    rw [restateAll_fst] at hincluded
    rw [hincluded, reconcile_map_reconcile hrestates hname.isProject hdirectory hnot hfixed]
      at hremoved
    have hremoved := hremoved (by simpa using hne)
    have hcovers' : Covers w.modules (declared lines) (linesAt t' w.settings.path) := by
      rw [hremoved, ← restateAll_fst]
      exact hcovers.restateAll hmodules _
    rw [linesAt_comply_revert hmodules hrested h.out hbefore hcovers', hremoved, ← restateAll_fst]
    exact restateAll_restateAll_of_declaresOnce hmodules h.listed h.out hrested.covers
      (hrested.rest hbefore) honce
  · have hback := reconcile_reconcile_addExternal hnot hfixed hname.isProject hdirectory
    have hnever : ¬(w.revert u t).Enforces w.settings.path := fun hmet =>
      henforces ((sameGraph_revert h.out).enforces_iff.mp hmet).enlist
    rw [linesAt_comply_of_not_enforces henforces,
      h.linesAt_add hsnapshot hnot hname hdirectory hfixed, hback] at hremoved
    rw [linesAt_comply_of_not_enforces hnever, hremoved hne]

end

end Workspace

end Inclusion
