import Inclusion.Proofs.Enforcement
import Mathlib.Data.List.Induction

/-!
# What nodes remember

A node may keep what it knows and merge each new observation into it. Whatever it went through, what
it knows of a name then shows the verb, the quote and the form that the last line of that name has;
group and version are those of a line, this one or an earlier one.

* `Node.shows_of_refresh`: after a reading, what is known of a name shows its last declaration.
* `Node.Reached.versed`: all that a node knows was spelled on some line.
* `Node.covers_of_refresh`: a node that has just been read can restate its lines.
-/
namespace Inclusion

/-- Whether dependencies are known under their own names and spelled as on lines. -/
def Versed (known : Dependencies) : Prop :=
  ∀ name d, known.get? name = some d → d.name = name ∧ Spelled d

/-- Whether a dependency shows its last observation: that one decides the verb, the quote and the
form, and the group if it has one. -/
structure Shows (last d : Dependency) : Prop where
  name : d.name = last.name
  verb : d.verb = last.verb
  quote : d.quote = last.quote
  source : d.source = last.source
  group : last.group ≠ none → d.group = last.group

theorem Shows.refl (d : Dependency) : Shows d d := ⟨rfl, rfl, rfl, rfl, fun _ => rfl⟩

theorem Versed.empty : Versed .empty := nofun

theorem versed_declared (lines : List String) : Versed (declared lines) := by
  intro name d hd
  obtain ⟨line, -, hread, hname⟩ := get?_declared hd
  exact ⟨hname, (Legible.of_ofLine? hread).toSpelled⟩

theorem Versed.insert {known : Dependencies} (h : Versed known) {d : Dependency} {name : String}
    (hname : d.name = name) (hd : Spelled d) : Versed (known.insert name d) := by
  intro k e he
  rw [NameMap.get?_insert] at he
  split at he
  next hk => cases he; exact ⟨hname.trans hk.symm, hd⟩
  next => exact h k e he

theorem Versed.desired {known : Dependencies} (h : Versed known) (policy : Policy) :
    Versed (Node.desired policy known) := by
  intro name wanted hwanted
  obtain ⟨d, hd, rfl⟩ := get?_desired hwanted
  obtain ⟨hname, hspelled⟩ := h name d hd
  split
  · exact ⟨hname, hspelled.group, hspelled.version⟩
  · exact ⟨hname, hspelled⟩

/-! ### Merging observations -/

theorem spelled_of_or {d newer : Dependency} (h : Spelled d) (hnewer : Spelled newer) :
    Spelled { newer with group := newer.group.or d.group, version := newer.version.or d.version }
    where
  group g hg := (Option.or_eq_some_iff.mp hg).elim (hnewer.group g) fun hd => h.group g hd.2
  version v hv := (Option.or_eq_some_iff.mp hv).elim (hnewer.version v) fun hd => h.version v hd.2

/-- All that an observation changes is what is known of its name, which then shows it. -/
theorem of_observe {keep : Bool} {known known' : Dependencies} {fresh : Dependency}
    (h : Node.observe keep known fresh = .ok known') :
    ∃ d, known' = known.insert fresh.name d ∧ Shows fresh d
      ∧ (Versed known → Spelled fresh → Spelled d) := by
  unfold Node.observe at h
  split at h
  next old hold =>
    unfold Dependency.merge at h
    split at h
    next hname =>
      simp only [Except.map, Except.ok.injEq] at h
      refine ⟨_, h.symm, ⟨rfl, rfl, rfl, rfl, fun hgroup => ?_⟩, fun hknown hfresh => ?_⟩
      · obtain ⟨g, hg⟩ := Option.ne_none_iff_exists'.mp hgroup
        simp [hg]
      · cases keep with
        | false => cases hold
        | true => exact spelled_of_or (hknown fresh.name old hold).2 hfresh
    next => cases h
  next =>
    cases h
    exact ⟨fresh, rfl, .refl fresh, fun _ hfresh => hfresh⟩

theorem listed_concat (fresh : List Dependency) (d : Dependency) :
    listed (fresh ++ [d]) = (listed fresh).insert d.name d := by
  simp [listed, NameMap.ofList]

theorem foldlM_observe_concat {keep : Bool} {known all : Dependencies} {fresh : List Dependency}
    {d : Dependency} (h : (fresh ++ [d]).foldlM (Node.observe keep) known = .ok all) :
    ∃ before, fresh.foldlM (Node.observe keep) known = .ok before
      ∧ Node.observe keep before d = .ok all := by
  rw [List.foldlM_append] at h
  cases hbefore : fresh.foldlM (Node.observe keep) known with
  | error e => rw [hbefore] at h; cases h
  | ok before =>
    rw [hbefore] at h
    refine ⟨before, rfl, ?_⟩
    change ([d].foldlM (Node.observe keep) before) = .ok all at h
    rw [List.foldlM_cons] at h
    cases hd : Node.observe keep before d with
    | error e => rw [hd] at h; cases h
    | ok known => rw [hd] at h; exact h

/-- After any observations, what is known of a name shows the last one of it. -/
theorem shows_of_foldlM {keep : Bool} {known all : Dependencies} {fresh : List Dependency}
    (h : fresh.foldlM (Node.observe keep) known = .ok all) {name : String} {last : Dependency}
    (hlast : (listed fresh).get? name = some last) :
    ∃ d, all.get? name = some d ∧ Shows last d := by
  induction fresh using List.reverseRecOn generalizing all with
  | nil => cases hlast
  | append_singleton fresh e ih =>
    obtain ⟨before, hbefore, he⟩ := foldlM_observe_concat h
    obtain ⟨d, rfl, hshows, -⟩ := of_observe he
    rw [listed_concat, NameMap.get?_insert] at hlast
    rw [NameMap.get?_insert]
    split at hlast
    next hname => cases hlast; exact ⟨d, if_pos hname, hshows⟩
    next hname => rw [if_neg hname]; exact ih hbefore hlast

theorem versed_of_foldlM {keep : Bool} {known all : Dependencies} {fresh : List Dependency}
    (hknown : Versed known) (hfresh : ∀ d ∈ fresh, Legible d)
    (h : fresh.foldlM (Node.observe keep) known = .ok all) : Versed all := by
  induction fresh using List.reverseRecOn generalizing all with
  | nil => cases h; exact hknown
  | append_singleton fresh e ih =>
    obtain ⟨before, hbefore, he⟩ := foldlM_observe_concat h
    obtain ⟨d, rfl, hshows, hspelled⟩ := of_observe he
    have hversed := ih (fun d hd => hfresh d (List.mem_append_left _ hd)) hbefore
    have hlegible := hfresh e (List.mem_append_right _ (List.mem_singleton_self e))
    exact hversed.insert hshows.name (hspelled hversed hlegible.toSpelled)

theorem covers_of_shows {modules : NameMap Manifest.Module} {known : Dependencies}
    {lines : List String} (hknown : Versed known)
    (hshows : ∀ name last, (declared lines).get? name = some last →
      ∃ d, known.get? name = some d ∧ Shows last d)
    (huntorn : Untorn modules lines) : Covers modules known lines := by
  intro line hline found hread
  obtain ⟨last, hlast, line', hline', hread', hname⟩ := exists_get?_declared hline hread
  obtain ⟨d, hd, hshow⟩ := hshows _ last hlast
  have hlegible := Legible.of_ofLine? hread'
  have hspelled := (hknown _ d hd).2
  refine ⟨d, hd, hshow.name.trans hname, ⟨hspelled, fun hs => ?_, fun hs => ?_⟩,
    fun htrue hfalse hnone => ?_⟩
  · exact hshow.name ▸ hlegible.project (hshow.source ▸ hs)
  · exact hshow.name ▸ hlegible.artifact (hshow.source ▸ hs)
  · refine huntorn line hline line' hline' found last hread hread' hname.symm htrue
      (hshow.source ▸ hfalse) ?_
    by_contra hgroup
    exact hgroup (hshow.group hgroup ▸ hnone)

namespace Node

/-! ### Nodes -/

/-- Whether all that a node has found and knows was spelled on some line. -/
structure Learned (n : Node) : Prop where
  known : Versed n.all
  found : ∀ d ∈ n.file.dependencies, Legible d

variable {n : Node}

theorem legible_of_mem_declared {lines : List String} {d : Dependency}
    (h : d ∈ lines.filterMap Dependency.ofLine?) : Legible d := by
  obtain ⟨line, -, hread⟩ := List.mem_filterMap.mp h
  exact .of_ofLine? hread

theorem of_populate {keep : Bool} {fresh : List Dependency} {n' : Node}
    (h : n.populate keep fresh = .ok n') :
    n'.file = n.file
      ∧ fresh.foldlM (observe keep) (if keep then n.all else .empty) = .ok n'.all := by
  unfold populate at h
  dsimp only at h
  split at h
  next => cases h
  next all hall => cases h; exact ⟨rfl, hall⟩

theorem Learned.populate {keep : Bool} {fresh : List Dependency} {n' : Node} (h : n.Learned)
    (hfresh : ∀ d ∈ fresh, Legible d) (hn' : n.populate keep fresh = .ok n') : n'.Learned := by
  obtain ⟨hfile, hall⟩ := of_populate hn'
  refine ⟨versed_of_foldlM ?_ hfresh hall, hfile ▸ h.found⟩
  split
  · exact h.known
  · exact .empty

theorem Learned.supersede {newer merged : Node} (h : n.Learned) (hnewer : newer.Learned)
    (hmerged : n.supersede newer = .ok merged) : merged.Learned := by
  unfold Node.supersede at hmerged
  split at hmerged
  · cases hmerged
  · dsimp only at hmerged
    split at hmerged
    · refine Learned.populate ?_ hnewer.found hmerged
      exact ⟨h.known, hnewer.found⟩
    · cases hmerged
      exact ⟨hnewer.known, hnewer.found⟩

section

variable {σ : Type} [Store σ]

theorem Learned.refresh (h : n.Learned) (store : σ) (keep : Bool) :
    (n.refresh store keep).2.Learned := by
  have hfound : ∀ d ∈ (n.file.refresh store).2.dependencies, Legible d := by
    rw [BuildFile.dependencies_refresh]
    exact fun d hd => legible_of_mem_declared hd
  have hread : Learned { n with file := (n.file.refresh store).2 } := ⟨h.known, hfound⟩
  unfold Node.refresh
  dsimp only
  split
  next => exact hread
  next hn' => exact hread.populate hfound hn'

theorem Learned.enforce (h : n.Learned) (store : σ) (policy : Policy) :
    (n.enforce store policy).2.1.Learned where
  known := h.known.desired policy
  found := by
    have hfound := BuildFile.dependencies_write n.file store (desired policy n.all) policy.modules
    exact fun d hd => h.found d (hfound ▸ hd)

/-- A reading that succeeds takes up what the lines of the build file declare. -/
theorem of_refresh {store : σ} {keep : Bool} {n' : Node} (h : n.refresh store keep = (.ok (), n')) :
    ∃ lines, Store.read store n'.file.path = .ok lines
      ∧ (lines.filterMap Dependency.ofLine?).foldlM (observe keep)
        (if keep then n.all else .empty) = .ok n'.all := by
  unfold Node.refresh at h
  dsimp only at h
  split at h
  next => cases h
  next m hm =>
    obtain ⟨hfile, hall⟩ := of_populate hm
    obtain ⟨hok, rfl⟩ := Prod.mk.inj h
    have hpath : m.file.path = n.file.path := by
      rw [hfile]; exact BuildFile.path_refresh store n.file
    rw [BuildFile.dependencies_refresh] at hall
    unfold BuildFile.refresh at hok
    split at hok
    next => cases hok
    next lines hread =>
      rw [linesAt_of_read hread] at hall
      exact ⟨lines, hpath ▸ hread, hall⟩

/-- After a reading, what is known of a name shows its last declaration. -/
theorem shows_of_refresh {store : σ} {keep : Bool} {n' : Node} {lines : List String}
    (h : n.refresh store keep = (.ok (), n')) (hread : Store.read store n'.file.path = .ok lines)
    {name : String} {last : Dependency} (hlast : (declared lines).get? name = some last) :
    ∃ d, n'.all.get? name = some d ∧ Shows last d := by
  obtain ⟨lines', hread', hall⟩ := of_refresh h
  cases hread.symm.trans hread'
  exact shows_of_foldlM hall hlast

end

/-- The states of a node: it is made for a module or a project, and then reads its build file, takes
over newer nodes, is linked and has policies enforced on it, in any order and over any files. -/
inductive Reached : Node → Prop
  | external (u : Manifest.Module) (base : Path) (buildFile : String) :
    Reached (.external u base buildFile)
  | internal (project : String) (base : Path) (buildFile : String) :
    Reached (.internal project base buildFile)
  | refresh {σ : Type} [Store σ] {n : Node} (h : Reached n) (store : σ) (keep : Bool) :
    Reached (n.refresh store keep).2
  | supersede {n newer merged : Node} (h : Reached n) (hnewer : Reached newer)
    (hmerged : n.supersede newer = .ok merged) : Reached merged
  | enforce {σ : Type} [Store σ] {n : Node} (h : Reached n) (store : σ) (policy : Policy) :
    Reached (n.enforce store policy).2.1
  | link {n : Node} (h : Reached n) (edges : List String) : Reached { n with edges }

theorem Reached.learned (h : n.Reached) : n.Learned := by
  induction h with
  | external u base buildFile => exact ⟨.empty, nofun⟩
  | internal project base buildFile => exact ⟨.empty, nofun⟩
  | refresh _ store keep ih => exact ih.refresh store keep
  | supersede _ _ hmerged ih ihnewer => exact ih.supersede ihnewer hmerged
  | enforce _ store policy ih => exact ih.enforce store policy
  | link _ edges ih => exact ⟨ih.known, ih.found⟩

/-- All that a node knows was spelled on some line. -/
theorem Reached.versed (h : n.Reached) : Versed n.all := h.learned.known

/-- A node that has just been read can restate its lines. -/
theorem covers_of_refresh {σ : Type} [Store σ] {store : σ} {keep : Bool} {n' : Node}
    {lines : List String} {modules : NameMap Manifest.Module} (hreached : n.Reached)
    (h : n.refresh store keep = (.ok (), n')) (hread : Store.read store n'.file.path = .ok lines)
    (huntorn : Untorn modules lines) : Covers modules n'.all lines := by
  have hversed : Versed n'.all := by
    have hnext := (hreached.refresh store keep).versed
    rwa [h] at hnext
  exact covers_of_shows hversed (fun _ _ => shows_of_refresh h hread) huntorn

end Node

end Inclusion
