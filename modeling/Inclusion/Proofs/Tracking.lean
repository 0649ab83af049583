import Inclusion.Proofs.Settings.Separation
import Inclusion.Proofs.Compliance

/-!
# Nodes that follow their build files

What the nodes of a workspace know was read from earlier files. They follow the files that there are
now if these still declare the same names and can be restated from what is known. Enforcing the
policy keeps it so, and brings the workspace to rest: another pass over nodes that have just been
read would write nothing.

* `linesAt_comply`: the lines of a build file after a pass.
* `Follows.comply`, `atRest_comply`: nodes follow their files after a pass, and are at rest.
* `comply_of_atRest`: a pass over nodes at rest writes nothing.
-/
namespace Inclusion

open Text BuildFile

/-! ### What depends on the declarations alone -/

section

variable {lines lines' : List String}
  (h : lines'.filterMap Dependency.ofLine? = lines.filterMap Dependency.ofLine?)

include h

theorem exists_line_of_filterMap_eq {line : String} (hline : line ∈ lines') {d : Dependency}
    (hread : Dependency.ofLine? line = some d) :
    ∃ l ∈ lines, Dependency.ofLine? l = some d :=
  List.mem_filterMap.mp (h ▸ List.mem_filterMap.mpr ⟨line, hline, hread⟩)

theorem Covers.congr {modules : NameMap Manifest.Module} {known : Dependencies}
    (hcovers : Covers modules known lines) : Covers modules known lines' := by
  intro line hline found hread
  obtain ⟨l, hl, hread⟩ := exists_line_of_filterMap_eq h hline hread
  exact hcovers l hl found hread

theorem Agrees.congr {desired : Dependencies} (hagrees : Agrees desired lines) :
    Agrees desired lines' := by
  intro line hline d hread
  obtain ⟨l, hl, hread⟩ := exists_line_of_filterMap_eq h hline hread
  exact hagrees l hl d hread

end

/-- Lines that agree with what a policy desires also agree with what it desires of themselves. -/
theorem Agrees.declared {policy : Policy} {known : Dependencies} {lines : List String}
    (h : Agrees (Node.desired policy known) lines) :
    Agrees (Node.desired policy (declared lines)) lines := by
  intro line hline d hread
  obtain ⟨last, hlast, line', hline', hread', hname⟩ := exists_get?_declared hline hread
  refine ⟨_, get?_desired_of_get? hlast, ?_⟩
  obtain ⟨wanted, hwanted, hsource⟩ := h line hline d hread
  obtain ⟨wanted', hwanted', hsource'⟩ := h line' hline' last hread'
  rw [hname, hwanted, Option.some.injEq] at hwanted'
  subst hwanted'
  split
  next hmodule => exact (source_of_desired hwanted hmodule).symm.trans hsource
  next => exact hsource'.symm.trans hsource

/-- What a node that was read from earlier files has to do with the files there are now. -/
structure Node.Follows (modules : NameMap Manifest.Module) (s₀ s : Shelf) (n : Node) : Prop where
  known : ∀ included, Node.desired ⟨modules, included⟩ n.all
    = Node.desired ⟨modules, included⟩ (declared (linesAt s₀ n.file.path))
  covers : Covers modules (declared (linesAt s₀ n.file.path)) (linesAt s n.file.path)
  names : declaredNames (linesAt s n.file.path) = declaredNames (linesAt s₀ n.file.path)

namespace Workspace

/-- Whether all nodes follow their build files. -/
def Follows (s₀ : Shelf) (w : Workspace) (s : Shelf) : Prop :=
  ∀ name n, w.nodes.get? name = some n → n.Follows w.modules s₀ s

/-- Whether the build files of all nodes that are met agree with what the policy asks of them. -/
def AtRest (w : Workspace) (s : Shelf) : Prop :=
  ∀ name n, w.IsMet name → w.shape.get? name = some n →
    Agrees (Node.desired w.policy (declared (linesAt s n.path))) (linesAt s n.path)

theorem follows_survey {w : Workspace} (h : w.Sound) {s : Shelf} {keep : Bool}
    (huntorn : ∀ name n, (w.survey s keep).nodes.get? name = some n →
      Untorn (w.survey s keep).modules (linesAt s n.file.path)) :
    (w.survey s keep).Follows s s := by
  intro name n hn
  have hall := all_of_survey h hn
  exact ⟨fun _ => by rw [← hall], covers_declared (huntorn name n hn), rfl⟩

variable {w : Workspace} {s₀ s : Shelf}

/-- Nodes go on following their files if these declare what they declared. -/
theorem Follows.congr (h : w.Follows s₀ s) {s' : Shelf}
    (hlines : ∀ path, (linesAt s' path).filterMap Dependency.ofLine?
      = (linesAt s path).filterMap Dependency.ofLine?) : w.Follows s₀ s' := by
  intro name n hn
  obtain ⟨hknown, hcovers, hnames⟩ := h name n hn
  refine ⟨hknown, hcovers.congr (hlines _), ?_⟩
  rw [declaredNames, hlines, ← declaredNames, hnames]

theorem AtRest.congr (h : w.AtRest s) {s' : Shelf}
    (hlines : ∀ path, (linesAt s' path).filterMap Dependency.ofLine?
      = (linesAt s path).filterMap Dependency.ofLine?) : w.AtRest s' := by
  intro name n hmet hn
  have hagrees := (h name n hmet hn).congr (hlines n.path)
  rwa [show declared (linesAt s n.path) = declared (linesAt s' n.path) by
    rw [declared, declared, hlines]] at hagrees

theorem AtRest.of_shape {w' : Workspace} (h : w.AtRest s) (hlinked : w.Linked) (hlinked' : w'.Linked)
    (hshape : w'.shape = w.shape) (hincluded : w'.included = w.included)
    (hmodules : w'.modules = w.modules) : w'.AtRest s := by
  intro name n hmet hn
  rw [isMet_congr hlinked hlinked' hshape hincluded] at hmet
  rw [policy, hmodules, hincluded, ← policy]
  exact h name n hmet (hshape ▸ hn)

theorem Follows.shapeAt_eq (h : w.Follows s₀ s) {name : String} {origin : Origin} {path : Path}
    (hn : w.shape.get? name = some (shapeAt s₀ origin path)) :
    shapeAt s origin path = shapeAt s₀ origin path := by
  rw [get?_shape] at hn
  obtain ⟨n, hget, hshape⟩ := Option.map_eq_some_iff.mp hn
  obtain rfl : n.file.path = path := congrArg Shape.path hshape
  rw [shapeAt, (h name n hget).names]
  rfl

/-! ### A pass over nodes that follow their files -/

/-- Whether all nodes whose build file is at a location know the same of it, whichever modules are
included. -/
def Knows (w : Workspace) (l : List Path.Step) (known : Dependencies) : Prop :=
  ∀ included name n, w.nodes.get? name = some n → n.file.path.location = l →
    Node.desired ⟨w.modules, included⟩ n.all = Node.desired ⟨w.modules, included⟩ known

theorem Knows.shares {l : List Path.Step} {known : Dependencies} (h : w.Knows l known) :
    w.Shares l known := h w.included

theorem Knows.comply {l : List Path.Step} {known : Dependencies} (h : w.Knows l known) (t : Shelf) :
    (w.comply t).1.Knows l known := by
  intro included name n' hn' hl
  obtain ⟨n, hn, hstyle⟩ := exists_of_get?_comply hn'
  have hdesired : Node.desired ⟨w.modules, included⟩ n'.all
      = Node.desired ⟨w.modules, included⟩ n.all := hstyle.desired_eq rfl
  rw [modules_comply, hdesired]
  exact h included name n hn (hstyle.path ▸ hl)

theorem Follows.knows (h : w.Follows s₀ s) (path : Path) :
    w.Knows path.location (declared (linesAt s₀ path)) := by
  intro included name n hn hl
  rw [← linesAt_of_same (show n.file.path.Same path from hl)]
  exact (h name n hn).known included

open Classical in
/-- After a pass, a build file is restated if it is that of a node that is met, and else as it was.
-/
theorem linesAt_comply_of_shares (hmodules : Nameable w.modules) {path : Path}
    {known : Dependencies} (hshares : w.Shares path.location known)
    (hcovers : Covers w.modules known (linesAt s path)) :
    linesAt (w.comply s).2 path
      = if ∃ met, w.IsMet met ∧ w.IsAt met path.location
        then (restateAll (Node.desired w.policy known) w.policy.modules (linesAt s path)).1
        else linesAt s path := by
  have htext := textAt_enforceAll hmodules hshares
    (fun text htext => by
      have hlines : linesAt s path = splitLines text :=
        linesAt_of_read (Shelf.read_of_text? htext)
      exact hlines ▸ hcovers) w.visitOrder
  simp only [mem_visitOrder_iff] at htext
  change (w.comply s).2.text? path = _ at htext
  rw [linesAt_eq, htext]
  cases hold : s.textAt path.location with
  | none =>
    have hnil : linesAt s path = [] := by
      rw [linesAt_eq, show s.text? path = none from hold]
      rfl
    rw [hnil]
    split <;> rfl
  | some text =>
    have hlines : linesAt s path = splitLines text :=
      linesAt_of_read (Shelf.read_of_text? hold)
    rw [hlines] at hcovers ⊢
    split
    next => exact splitLines_restateText hmodules hcovers
    next => rfl

open Classical in
/-- After a pass over nodes that follow their files, a build file is restated from what was read of
it. -/
theorem linesAt_comply (hmodules : WellNamed w.modules) (h : w.Follows s₀ s) {name : String}
    {n : Node} (hn : w.nodes.get? name = some n) :
    linesAt (w.comply s).2 n.file.path
      = if ∃ met, w.IsMet met ∧ w.IsAt met n.file.path.location
        then (restateAll (Node.desired w.policy (declared (linesAt s₀ n.file.path)))
          w.policy.modules (linesAt s n.file.path)).1
        else linesAt s n.file.path :=
  linesAt_comply_of_shares hmodules.nameable (h.knows n.file.path).shares (h name n hn).covers

theorem Follows.comply (h : w.Follows s₀ s) (hmodules : WellNamed w.modules) :
    (w.comply s).1.Follows s₀ (w.comply s).2 := by
  intro name n' hn'
  obtain ⟨n, hn, hstyle⟩ := exists_of_get?_comply hn'
  obtain ⟨hknown, hcovers, hnames⟩ := h name n hn
  have hlines := linesAt_comply hmodules h hn
  rw [modules_comply]
  refine ⟨fun included => ?_, ?_, ?_⟩
  · have hdesired : Node.desired ⟨w.modules, included⟩ n'.all
        = Node.desired ⟨w.modules, included⟩ n.all := hstyle.desired_eq rfl
    rw [hdesired, hstyle.path]
    exact hknown included
  · rw [hstyle.path, hlines]
    split
    next => exact covers_restateAll hmodules.nameable hcovers
    next => exact hcovers
  · rw [hstyle.path, hlines]
    split
    next =>
      exact (declaredNames_restateAll hmodules.titled (fun _ => hmodules.of_turned) hcovers).trans
        hnames
    next => exact hnames

/-- After a pass, the nodes are at rest. -/
theorem atRest_comply (h : w.Follows s₀ s) (hmodules : WellNamed w.modules) :
    (w.comply s).1.AtRest (w.comply s).2 := by
  intro name x hmet hx
  rw [isMet_comply] at hmet
  rw [shape_comply, get?_shape] at hx
  obtain ⟨n, hn, rfl⟩ := Option.map_eq_some_iff.mp hx
  rw [policy_comply, show n.shape.path = n.file.path from rfl,
    linesAt_comply hmodules h hn, if_pos ⟨name, hmet, n, hn, rfl⟩]
  exact (agrees_restateAll hmodules.nameable (h name n hn).covers).declared

/-- A pass leaves a text alone if it is the build file of no node that is met. -/
theorem textAt_comply_of_not_isAt {l : List Path.Step} (h : ∀ name, w.IsMet name → ¬w.IsAt name l)
    (s : Shelf) : (w.comply s).2.textAt l = s.textAt l := by
  have hall : ∀ (names : List String) (w : Workspace) (s : Shelf),
      (∀ name ∈ names, ¬w.IsAt name l) → (w.enforceAll s names).2.textAt l = s.textAt l := by
    intro names
    induction names with
    | nil => exact fun w s _ => rfl
    | cons name names ih =>
      intro w s h
      have hstep : (w.enforceOn s name).2.textAt l = s.textAt l := by
        unfold enforceOn
        split
        next => rfl
        next n hn =>
          rw [Node.textAt_enforce,
            if_neg fun hl => h name (List.mem_cons_self ..) ⟨n, hn, hl.symm⟩]
      have hrest := ih (w.enforceOn s name).1 (w.enforceOn s name).2
        fun k hk hat => h k (List.mem_cons_of_mem _ hk) (isAt_enforceOn.mp hat)
      exact hrest.trans hstep
  exact hall w.visitOrder w s fun name hname => h name (mem_visitOrder_iff.mp hname)

/-- A pass changes nothing that is said of settings, in whatever file. -/
theorem flatMap_linePieces_comply (hmodules : WellNamed w.modules) (h : w.Follows s₀ s)
    (path : Path) :
    (linesAt (w.comply s).2 path).flatMap Settings.linePieces
      = (linesAt s path).flatMap Settings.linePieces := by
  by_cases hat : ∃ name, w.IsAt name path.location
  · obtain ⟨name, n, hn, hl⟩ := hat
    have hsame : path.Same n.file.path := hl.symm
    rw [linesAt_of_same hsame, linesAt_of_same hsame, linesAt_comply hmodules h hn]
    split
    next => exact Settings.flatMap_linePieces_restateAll hmodules (h name n hn).covers
    next => rfl
  · have htext : (w.comply s).2.text? path = s.text? path :=
      textAt_comply_of_not_isAt (fun name _ hname => hat ⟨name, hname⟩) s
    rw [linesAt_eq, linesAt_eq, htext]

/-! ### Rest -/

theorem enforce_of_agrees {σ : Type} [Store σ] {store : σ} {policy : Policy} {n : Node}
    (h : Agrees (Node.desired policy n.all) (linesAt store n.file.path)) :
    (n.enforce store policy).2.2 = store := by
  change (n.file.write store (Node.desired policy n.all) policy.modules).2.2 = store
  unfold BuildFile.write
  split
  next => rfl
  next lines hread =>
    rw [linesAt_of_read hread] at h
    simp only [restateAll_snd_of_agrees h, ↓reduceIte]

/-- A pass over nodes at rest that have just been read writes nothing. -/
theorem comply_of_atRest (h : w.AtRest s) (hinformed : w.Informed s) : (w.comply s).2 = s := by
  have hall : ∀ (names : List String) (w : Workspace), (∀ name ∈ names, ∀ n,
      w.nodes.get? name = some n →
        Agrees (Node.desired w.policy n.all) (linesAt s n.file.path)) →
      (w.enforceAll s names).2 = s := by
    intro names
    induction names with
    | nil => exact fun w _ => rfl
    | cons name names ih =>
      intro w h
      have hstep : (w.enforceOn s name).2 = s := by
        unfold enforceOn
        split
        next => rfl
        next n hn => exact enforce_of_agrees (h name (List.mem_cons_self ..) n hn)
      have hrest := ih (w.enforceOn s name).1 fun k hk n' hn' => by
        obtain ⟨n, hn, hstyle⟩ := exists_of_get?_enforceOn hn'
        rw [policy_enforceOn, hstyle.desired_eq rfl, hstyle.path]
        exact h k (List.mem_cons_of_mem _ hk) n hn
      change ((w.enforceOn s name).1.enforceAll (w.enforceOn s name).2 names).2 = s
      rw [hstep]
      exact hrest
  refine hall w.visitOrder w fun name hname n hn => ?_
  rw [hinformed name n hn]
  exact h name n.shape (mem_visitOrder_iff.mp hname) (by rw [get?_shape, hn]; rfl)

end Workspace

end Inclusion
