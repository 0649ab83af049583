import Inclusion.Proofs.Performing

/-!
# A build file that is gone holds up no other

While modules are included and excluded, a build file may have gone missing since it was read. The
node whose file it is keeps the failure and remembers the form its dependencies were to have, so all
other nodes are met as before. With or without that file, a change comes to the same, in all other
files and in all that is known but that failure.

* `Shelf.read_drop`, `Shelf.write_drop`: what a missing file is to the others.
* `overlook_enforceOn`, `overlook_comply`: a turn and a pass with and without the file.
* `isolated_perform`: what a change comes to with and without it.
-/
namespace Inclusion

namespace Shelf

variable {s : Shelf} {p q : Path}

theorem read_drop (h : ¬q.Same p) : Store.read (s.drop p) q = Store.read s q := by
  have htext : (s.drop p).text? q = s.text? q := by rw [text?_drop, if_neg h]
  simp only [Store.read, htext]

theorem read_drop_of_same (h : q.Same p) : Store.read (s.drop p) q = .error (.notFound q) := by
  have htext : (s.drop p).text? q = none := by rw [text?_drop, if_pos h]
  exact read_of_text?_eq_none htext

theorem drop_put (h : ¬q.Same p) (text : String) : (s.put q text).drop p = (s.drop p).put q text := by
  refine Shelf.ext fun l => ?_
  simp only [put, drop, set]
  split
  next hp =>
    rw [if_neg]
    rintro rfl
    exact h hp
  next => rfl

theorem write_drop (h : ¬q.Same p) (lines : List String) :
    Store.write (s.drop p) q lines = (Store.write s q lines).map (·.drop p) := by
  have htext : (s.drop p).text? q = s.text? q := by rw [text?_drop, if_neg h]
  simp only [Store.write, htext]
  split
  next => rw [Except.map, drop_put h]
  next => rfl

end Shelf

variable {s : Shelf} {p : Path}

theorem SettingsFile.write_drop {f : SettingsFile} (h : ¬f.path.Same p) :
    f.write (s.drop p) = ((f.write s).1, (f.write s).2.1, (f.write s).2.2.drop p) := by
  unfold write
  rw [Shelf.read_drop h]
  split
  next => rfl
  next lines _ =>
    dsimp only
    rw [Shelf.write_drop h]
    split
    next => rfl
    next => cases Store.write s f.path (Settings.reconcile lines f.snapshot) <;> rfl

theorem BuildFile.write_drop {f : BuildFile} (h : ¬f.path.Same p) (desired : Dependencies)
    (modules : NameMap Manifest.Module) :
    f.write (s.drop p) desired modules
      = ((f.write s desired modules).1, (f.write s desired modules).2.1,
        (f.write s desired modules).2.2.drop p) := by
  unfold write
  rw [Shelf.read_drop h]
  split
  next => rfl
  next lines _ =>
    dsimp only
    rw [Shelf.write_drop h]
    split
    next => rfl
    next => cases Store.write s f.path (restateAll desired modules lines).1 <;> rfl

/-- Writing a build file leaves all the others as they were. -/
theorem BuildFile.drop_write {f : BuildFile} (h : f.path.Same p) (desired : Dependencies)
    (modules : NameMap Manifest.Module) : (f.write s desired modules).2.2.drop p = s.drop p := by
  refine Shelf.ext fun l => ?_
  simp only [Shelf.drop, Shelf.set, textAt_write]
  split
  next => rfl
  next hl => rw [if_neg fun hat => hl (hat.trans h)]

/-- Nothing is written to a file that is gone. -/
theorem BuildFile.store_write_drop {f : BuildFile} (h : f.path.Same p) (desired : Dependencies)
    (modules : NameMap Manifest.Module) : (f.write (s.drop p) desired modules).2.2 = s.drop p := by
  unfold write
  rw [Shelf.read_drop_of_same h]

namespace Node

/-- A node without the failure of its build file, if that is at a path. -/
def overlook (p : Path) (n : Node) : Node :=
  if n.file.path.Same p then { n with file := { n.file with error := none } } else n

theorem overlook_of_same {n : Node} (h : n.file.path.Same p) :
    n.overlook p = { n with file := { n.file with error := none } } := if_pos h

theorem overlook_of_not_same {n : Node} (h : ¬n.file.path.Same p) : n.overlook p = n := if_neg h

/-- Overlooking a failure changes nothing else. -/
theorem overlook_rest (p : Path) (n : Node) :
    { n.overlook p with file := { (n.overlook p).file with error := n.file.error } } = n := by
  unfold overlook
  split <;> rfl

theorem path_overlook (n : Node) : (n.overlook p).file.path = n.file.path :=
  (congrArg (·.file.path) (overlook_rest p n) :)

variable {n m : Node}

theorem path_of_overlook (h : n.overlook p = m.overlook p) : n.file.path = m.file.path := by
  rw [← path_overlook (p := p), h, path_overlook]

theorem eq_of_overlook (h : n.overlook p = m.overlook p) (hpath : ¬n.file.path.Same p) : n = m := by
  have hpath' : ¬m.file.path.Same p := path_of_overlook h ▸ hpath
  rwa [overlook_of_not_same hpath, overlook_of_not_same hpath'] at h

/-- What two nodes have in common that differ at most in the failure of a build file at a path. -/
structure Spared (p : Path) (n m : Node) : Prop where
  path : n.file.path = m.file.path
  all : n.all = m.all
  source : n.source = m.source
  remote : n.remote = m.remote
  whole : ¬n.file.path.Same p → n = m

theorem spared_of_overlook (h : n.overlook p = m.overlook p) : n.Spared p m := by
  have hrest := congrArg (fun k : Node => { k with file := n.file }) h
  have hkept : ∀ k : Node, { k.overlook p with file := n.file } = { k with file := n.file } :=
    fun k => congrArg (fun k : Node => { k with file := n.file }) (overlook_rest p k)
  rw [hkept, hkept] at hrest
  exact ⟨path_of_overlook h, (congrArg Node.all hrest :), (congrArg Node.source hrest :),
    (congrArg Node.remote hrest :), eq_of_overlook h⟩

/-- What a policy makes of a node whose build file is overlooked, whatever becomes of that file. -/
theorem overlook_enforce_of_same {σ : Type} [Store σ] (store : σ) (policy : Policy)
    (h : n.file.path.Same p) :
    (n.enforce store policy).2.1.overlook p
      = { n.overlook p with all := desired policy (n.overlook p).all }.repartition := by
  have hfile := BuildFile.write_rest n.file store (desired policy n.all) policy.modules
  have hpath : (n.enforce store policy).2.1.file.path.Same p := by
    change (n.file.write store (desired policy n.all) policy.modules).2.1.path.Same p
    rwa [BuildFile.path_write]
  rw [overlook_of_same hpath, overlook_of_same h]
  exact congrArg (fun f : BuildFile =>
    { { n with all := desired policy n.all }.repartition with file := { f with error := none } })
    hfile

/-- A node does not notice that another build file is gone. -/
theorem enforce_drop (h : ¬n.file.path.Same p) (policy : Policy) :
    n.enforce (s.drop p) policy
      = ((n.enforce s policy).1, (n.enforce s policy).2.1, (n.enforce s policy).2.2.drop p) := by
  have hwrite := BuildFile.write_drop (s := s) h (desired policy n.all) policy.modules
  unfold enforce
  dsimp only [repartition]
  rw [hwrite]

/-- A turn with and without the build file. -/
theorem overlook_enforce (h : n.overlook p = m.overlook p) (policy : Policy) :
    (n.enforce (s.drop p) policy).2.1.overlook p = (m.enforce s policy).2.1.overlook p
      ∧ (n.enforce (s.drop p) policy).2.2 = (m.enforce s policy).2.2.drop p := by
  by_cases hpath : n.file.path.Same p
  · have hpath' : m.file.path.Same p := path_of_overlook h ▸ hpath
    constructor
    · rw [overlook_enforce_of_same _ _ hpath, overlook_enforce_of_same _ _ hpath', h]
    · exact (BuildFile.store_write_drop hpath _ _).trans (BuildFile.drop_write hpath' _ _).symm
  · obtain rfl := eq_of_overlook h hpath
    rw [enforce_drop hpath]
    exact ⟨rfl, rfl⟩

end Node

namespace Workspace

variable {v w : Workspace}

/-- A workspace without the failures of the build files at a path. -/
def overlook (p : Path) (w : Workspace) : Workspace :=
  { w with nodes := w.nodes.mapValues fun _ n => n.overlook p }

theorem get?_nodes_overlook (w : Workspace) (name : String) :
    (w.overlook p).nodes.get? name = (w.nodes.get? name).map (·.overlook p) :=
  NameMap.get?_mapValues _ _ _

theorem edges_overlook (n : Node) : (n.overlook p).edges = n.edges :=
  (congrArg Node.edges (Node.overlook_rest p n) :)

theorem origin_overlook (n : Node) : (n.overlook p).origin = n.origin :=
  (congrArg Node.origin (Node.overlook_rest p n) :)

/-- The nodes are met in the same order. -/
theorem visitOrder_overlook (w : Workspace) : (w.overlook p).visitOrder = w.visitOrder := by
  have hedges : (w.overlook p).edgesOf = w.edgesOf := by
    funext name
    rw [edgesOf_eq, edgesOf_eq, get?_nodes_overlook, Option.map_map]
    exact congrArg (fun f => ((w.nodes.get? name).map f).getD []) (funext edges_overlook)
  have hinside : (w.overlook p).inside = w.inside := by
    funext name
    rw [inside, inside, get?_nodes_overlook]
    cases w.nodes.get? name with
    | none => rfl
    | some n => simp only [Option.map_some, origin_overlook]; rfl
  have hkeys : (w.overlook p).nodes.keys = w.nodes.keys := keys_mapValues _ _
  rw [visitOrder, visitOrder, hedges, hinside, hkeys]
  rfl

theorem overlook_insert (w : Workspace) (name : String) (n : Node) :
    ({ w with nodes := w.nodes.insert name n } : Workspace).overlook p
      = { w.overlook p with nodes := (w.overlook p).nodes.insert name (n.overlook p) } := by
  refine congrArg (fun nodes => { w with nodes }) (NameMap.ext fun k => ?_)
  rw [NameMap.get?_mapValues, NameMap.get?_insert, NameMap.get?_insert, get?_nodes_overlook]
  split <;> rfl

theorem overlook_enforceOn (h : v.overlook p = w.overlook p) (s : Shelf) (name : String) :
    (v.enforceOn (s.drop p) name).1.overlook p = (w.enforceOn s name).1.overlook p
      ∧ (v.enforceOn (s.drop p) name).2 = (w.enforceOn s name).2.drop p := by
  have hpolicy : v.policy = w.policy := (congrArg policy h :)
  have hnode := congrArg (fun u : Workspace => u.nodes.get? name) h
  simp only [get?_nodes_overlook] at hnode
  unfold enforceOn
  cases hv : v.nodes.get? name with
  | none =>
    rw [hv, Option.map_none, eq_comm, Option.map_eq_none_iff] at hnode
    rw [hnode]
    exact ⟨h, rfl⟩
  | some n =>
    rw [hv, Option.map_some] at hnode
    obtain ⟨m, hm, hnm⟩ := Option.map_eq_some_iff.mp hnode.symm
    obtain ⟨hturn, hfiles⟩ := Node.overlook_enforce (s := s) hnm.symm w.policy
    rw [hm]
    dsimp only
    rw [overlook_insert, overlook_insert, hpolicy, hturn, h]
    exact ⟨rfl, hfiles⟩

theorem overlook_enforceAll (h : v.overlook p = w.overlook p) (s : Shelf) (names : List String) :
    (v.enforceAll (s.drop p) names).1.overlook p = (w.enforceAll s names).1.overlook p
      ∧ (v.enforceAll (s.drop p) names).2 = (w.enforceAll s names).2.drop p := by
  induction names generalizing v w s with
  | nil => exact ⟨h, rfl⟩
  | cons name names ih =>
    obtain ⟨hturn, hfiles⟩ := overlook_enforceOn h s name
    simp only [enforceAll, List.foldl_cons] at ih ⊢
    rw [show v.enforceOn (s.drop p) name
      = ((v.enforceOn (s.drop p) name).1, (w.enforceOn s name).2.drop p) from Prod.ext rfl hfiles]
    exact ih hturn _

/-- A pass with and without the build file. -/
theorem overlook_comply (h : v.overlook p = w.overlook p) (s : Shelf) :
    (v.comply (s.drop p)).1.overlook p = (w.comply s).1.overlook p
      ∧ (v.comply (s.drop p)).2 = (w.comply s).2.drop p := by
  rw [comply, comply, ← visitOrder_overlook (p := p), h, visitOrder_overlook]
  exact overlook_enforceAll h s w.visitOrder

theorem editSettings_drop (h : ¬w.settings.path.Same p)
    (edit : Settings.Snapshot → Settings.Snapshot) :
    w.editSettings (s.drop p) edit
      = ((w.editSettings s edit).1, (w.editSettings s edit).2.1,
        (w.editSettings s edit).2.2.drop p) := by
  have hwrite := SettingsFile.write_drop (s := s)
    (f := { w.settings with snapshot := edit w.settings.snapshot }) h
  unfold editSettings
  dsimp only
  rw [hwrite]
  generalize ({ w.settings with snapshot := edit w.settings.snapshot } : SettingsFile).write s = r
  obtain ⟨_ | _, f, t⟩ := r <;> rfl

/-- A change with and without a build file that is not the settings file. -/
theorem overlook_perform (h : ¬w.settings.path.Same p) (s : Shelf) (c : Change) :
    (w.perform (s.drop p) c).1 = (w.perform s c).1
      ∧ (w.perform (s.drop p) c).2.1.overlook p = (w.perform s c).2.1.overlook p
      ∧ (w.perform (s.drop p) c).2.2 = (w.perform s c).2.2.drop p := by
  cases c with
  | including name =>
    simp only [perform, includeModule, editSettings_drop h]
    split
    next => exact ⟨rfl, rfl, rfl⟩
    next u _ =>
      generalize w.editSettings s _ = r
      obtain ⟨_ | _, v, t⟩ := r
      · exact ⟨rfl, rfl, rfl⟩
      · exact ⟨rfl, overlook_comply rfl t⟩
  | excluding name =>
    simp only [perform, excludeModule, editSettings_drop h]
    split
    next => exact ⟨rfl, rfl, rfl⟩
    next u _ =>
      generalize w.editSettings s _ = r
      obtain ⟨_ | _, v, t⟩ := r
      · exact ⟨rfl, rfl, rfl⟩
      · dsimp only
        split
        next => exact ⟨rfl, overlook_comply rfl t⟩
        next => exact ⟨rfl, rfl, rfl⟩

/-- A build file that is gone, if it is not the settings file, does not change what including or
excluding a module comes to: neither the answer, nor any other file, nor the included modules, nor
what is known of the settings, nor what any node knows. Nodes with another build file are the same
altogether, their failures included. -/
theorem isolated_perform (w : Workspace) (s : Shelf) (c : Change) {p : Path}
    (hp : ¬w.settings.path.Same p) :
    (w.perform (s.drop p) c).1 = (w.perform s c).1
      ∧ (∀ q, ¬q.Same p → (w.perform (s.drop p) c).2.2.text? q = (w.perform s c).2.2.text? q)
      ∧ (w.perform (s.drop p) c).2.1.included = (w.perform s c).2.1.included
      ∧ (w.perform (s.drop p) c).2.1.settings = (w.perform s c).2.1.settings
      ∧ ∀ name, Option.Rel (Node.Spared p) ((w.perform (s.drop p) c).2.1.nodes.get? name)
          ((w.perform s c).2.1.nodes.get? name) := by
  obtain ⟨hanswer, hworkspace, hfiles⟩ := overlook_perform hp s c
  refine ⟨hanswer, fun q hq => ?_, (congrArg included hworkspace :), (congrArg settings hworkspace :),
    fun name => ?_⟩
  · rw [hfiles, Shelf.text?_drop, if_neg hq]
  · have hnode := congrArg (fun v : Workspace => v.nodes.get? name) hworkspace
    simp only [get?_nodes_overlook] at hnode
    cases hgone : (w.perform (s.drop p) c).2.1.nodes.get? name with
    | none =>
      rw [hgone, Option.map_none, eq_comm, Option.map_eq_none_iff] at hnode
      rw [hnode]
      exact .none
    | some n =>
      rw [hgone, Option.map_some] at hnode
      obtain ⟨m, hm, hsame⟩ := Option.map_eq_some_iff.mp hnode.symm
      rw [hm]
      exact .some (Node.spared_of_overlook hsame.symm)

/-- Two projects that depend on a module which is not included. -/
def twoProjectFiles : Shelf := .ofFiles
  [ ("/ws/settings.gradle", "include ':app', ':lib'\n"),
    ("/ws/lib/build.gradle", "api 'g:core:1.0'"),
    ("/ws/app/build.gradle", "api 'g:core:1.0'") ]

/-- The module is included, and the build file of one of them is gone by then. -/
theorem isolated_perform_gone :
    let w := (blank ⟨"/ws"⟩ {} { name := "d", modules := [⟨"core", "core", "g"⟩] }).survey
      twoProjectFiles false
    let p : Path := ⟨"/ws/lib/build.gradle"⟩
    let q : Path := ⟨"/ws/app/build.gradle"⟩
    ¬w.settings.path.Same p
      ∧ (w.perform (twoProjectFiles.drop p) (.including "core")).1
        = (w.perform twoProjectFiles (.including "core")).1
      ∧ (w.perform (twoProjectFiles.drop p) (.including "core")).2.2.text? q
        = (w.perform twoProjectFiles (.including "core")).2.2.text? q := by
  intro w p q
  have hp : ¬w.settings.path.Same p := by decide +kernel
  obtain ⟨hanswer, hfiles, -⟩ := isolated_perform w twoProjectFiles (.including "core") hp
  exact ⟨hp, hanswer, hfiles q (by decide)⟩

end Workspace

end Inclusion
