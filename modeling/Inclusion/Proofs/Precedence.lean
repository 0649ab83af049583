import Inclusion.Proofs.Coherence
import Inclusion.Proofs.Covering
import Mathlib.Data.List.Shortlex

/-!
# Which node has its turn first

A search takes up the names of a graph in the order of the ways to them: a shorter way goes before a
longer one, and of equally long ways the one that comes first name by name. What counts for a name is
the first way to it. So a node need not have its turn before the nodes that it declares: one of them
may be reached by a way that is as short as its own.

* `Way`: the ways that a search can take to a name.
* `Precedes.append_singleton`: what goes before stays before, one name further.
* `Queued.skip`, `Queued.visit`: the names in a queue stand in the order of the ways to them.
* `Queued.pairwise`: a search takes up names in the order of the first ways to them.
* `Workspace.before_of_forall_mem`, `Workspace.before_iff`: which of two nodes has its turn first.
* `Workspace.exists_declared_before`: a node may have its turn after one that it declares.
-/
namespace Inclusion

/-! ### Ways -/

/-- The ways that a search from a queue can take to a name, over names that pass a test. -/
inductive Way (edges : String → List String) (passes : String → Prop) (queue : List String) :
    List String → String → Prop
  | start {name : String} (hqueue : name ∈ queue) (h : passes name) :
    Way edges passes queue [name] name
  | edge {way : List String} {name other : String} (hway : Way edges passes queue way name)
      (hedge : other ∈ edges name) (h : passes other) :
    Way edges passes queue (way ++ [other]) other

/-- Whether a way is shorter than another one or, if not, as long and first name by name. -/
def Precedes : List String → List String → Prop := List.Shortlex (· < ·)

namespace Precedes

variable {l m n : List String}

theorem asymm (h : Precedes l m) : ¬Precedes m l := List.Shortlex.asymm.asymm l m h

theorem trans (h : Precedes l m) (h' : Precedes m n) : Precedes l n := by
  unfold Precedes at *
  rw [List.shortlex_def] at h h' ⊢
  rcases h with h | ⟨hlength, h⟩ <;> rcases h' with h' | ⟨hlength', h'⟩
  · exact .inl (h.trans h')
  · exact .inl (hlength' ▸ h)
  · exact .inl (hlength ▸ h')
  · exact .inr ⟨hlength.trans hlength', List.lex_trans String.lt_trans h h'⟩

theorem append (l : List String) (name : String) : Precedes l (l ++ [name]) :=
  List.Shortlex.of_length_lt (by simp)

theorem append_right (h : Precedes l m) (name : String) : Precedes l (m ++ [name]) :=
  h.trans (append m name)

theorem append_left (l : List String) {name other : String} (h : name < other) :
    Precedes (l ++ [name]) (l ++ [other]) :=
  List.Shortlex.append_left ((List.shortlex_singleton_iff name other).mpr h) l

/-- What goes before stays before, one name further. -/
theorem append_singleton (h : Precedes l m) (name other : String) :
    Precedes (l ++ [name]) (m ++ [other]) := by
  unfold Precedes at *
  rw [List.shortlex_def] at h ⊢
  simp only [List.length_append, List.length_singleton]
  rcases h with h | ⟨hlength, h⟩
  · exact .inl (by omega)
  · refine .inr ⟨by omega, ?_⟩
    induction h with
    | nil => simp at hlength
    | cons _ ih => exact .cons (ih (by simpa using hlength))
    | rel hlt => exact .rel hlt

end Precedes

namespace Way

variable {edges : String → List String} {passes : String → Prop} {queue way : List String}
  {name : String}

theorem passes_name (h : Way edges passes queue way name) : passes name := by
  cases h <;> assumption

theorem exists_eq (h : Way edges passes queue way name) : ∃ names, way = names ++ [name] := by
  cases h with
  | start => exact ⟨[], rfl⟩
  | edge => exact ⟨_, rfl⟩

/-- A way to a name that passes another one starts with a way to that one. -/
theorem exists_start {other : String} (h : Way edges passes queue way other) (hmem : name ∈ way) :
    ∃ start, Way edges passes queue start name ∧ (start = way ∨ Precedes start way) := by
  induction h with
  | start hqueue h =>
    cases List.mem_singleton.mp hmem
    exact ⟨_, .start hqueue h, .inl rfl⟩
  | @edge way last other hway hedge h ih =>
    rcases List.mem_append.mp hmem with hmem | hmem
    · obtain ⟨start, hstart, rfl | hfirst⟩ := ih hmem
      · exact ⟨start, hstart, .inr (Precedes.append start other)⟩
      · exact ⟨start, hstart, .inr (hfirst.append_right other)⟩
    · cases List.mem_singleton.mp hmem
      exact ⟨_, .edge hway hedge h, .inl rfl⟩

end Way

/-! ### The queue of a search -/

/-- A name in the queue of a search, with the names by which the search came to it. -/
structure Arrival where
  before : List String
  name : String

namespace Arrival

def way (a : Arrival) : List String := a.before ++ [a.name]

/-- The arrival at a name behind an edge. -/
def next (a : Arrival) (other : String) : Arrival := ⟨a.way, other⟩

end Arrival

/-- How the arrivals in the queue of a search stand to the ways to names, given what is pending. -/
structure Queued (edges : String → List String) (passes : String → Prop)
    (queue pending : List String) (arrivals : List Arrival) : Prop where
  /-- Arrivals stand in the order of their ways. -/
  ascending : arrivals.Pairwise fun a b => Precedes a.way b.way
  /-- No way is more than one name ahead of another one. -/
  level : ∀ a ∈ arrivals, ∀ b ∈ arrivals, Precedes a.before b.way
  isWay : ∀ a ∈ arrivals, a.name ∈ pending → Way edges passes queue a.way a.name
  start : ∀ name ∈ queue, name ∈ pending → ⟨[], name⟩ ∈ arrivals
  /-- Behind a name that was met, what is still pending is queued on the first way to that name. -/
  edge : ∀ name, passes name → name ∉ pending →
    ∃ way, (∀ way', Way edges passes queue way' name → way' = way ∨ Precedes way way')
      ∧ ∀ other ∈ edges name, other ∈ pending → ⟨way, other⟩ ∈ arrivals

theorem queued_start (edges : String → List String) {passes : String → Prop}
    {pending queue : List String} (hpasses : ∀ name, passes name ↔ name ∈ pending)
    (h : queue.Pairwise (· < ·)) :
    Queued edges passes queue pending (queue.map (Arrival.mk [])) where
  ascending := by
    rw [List.pairwise_map]
    exact h.imp fun hlt => Precedes.append_left [] hlt
  level a ha b hb := by
    obtain ⟨name, -, rfl⟩ := List.mem_map.mp ha
    obtain ⟨other, -, rfl⟩ := List.mem_map.mp hb
    exact Precedes.append [] other
  isWay a ha hpending := by
    obtain ⟨name, hname, rfl⟩ := List.mem_map.mp ha
    exact .start hname ((hpasses name).mpr hpending)
  start name hname _ := List.mem_map_of_mem hname
  edge name hin hnot := absurd ((hpasses name).mp hin) hnot

namespace Queued

variable {edges : String → List String} {passes : String → Prop} {queue pending : List String}
  {a : Arrival} {arrivals : List Arrival}

/-- No way to a pending name goes before all arrivals. -/
theorem exists_arrival (h : Queued edges passes queue pending arrivals) {way : List String}
    {name : String} (hway : Way edges passes queue way name) (hpending : name ∈ pending) :
    ∃ a ∈ arrivals, way = a.way ∨ Precedes a.way way := by
  induction hway with
  | start hqueue _ => exact ⟨_, h.start _ hqueue hpending, .inl rfl⟩
  | @edge way name other hway hedge _ ih =>
    by_cases hname : name ∈ pending
    · obtain ⟨a, ha, rfl | hfirst⟩ := ih hname
      · exact ⟨a, ha, .inr (Precedes.append a.way other)⟩
      · exact ⟨a, ha, .inr (hfirst.append_right other)⟩
    · -- the name was met, and what is behind it is queued on the first way to it
      obtain ⟨first, hleast, hqueued⟩ := h.edge name hway.passes_name hname
      refine ⟨⟨first, other⟩, hqueued other hedge hpending, ?_⟩
      rcases hleast way hway with rfl | hfirst
      · exact .inl rfl
      · exact .inr (hfirst.append_singleton other other)

/-- No way to a pending name goes before the first arrival. -/
theorem le_of_way (h : Queued edges passes queue pending (a :: arrivals)) {way : List String}
    {name : String} (hway : Way edges passes queue way name) (hpending : name ∈ pending) :
    way = a.way ∨ Precedes a.way way := by
  obtain ⟨b, hb, hle⟩ := h.exists_arrival hway hpending
  rcases List.mem_cons.mp hb with rfl | hb
  · exact hle
  · have hfirst : Precedes a.way b.way := (List.pairwise_cons.mp h.ascending).1 b hb
    rcases hle with rfl | hle
    · exact .inr hfirst
    · exact .inr (hfirst.trans hle)

theorem of_mem_cons_of_ne {b : Arrival} (hb : b ∈ a :: arrivals) (hne : b.name ≠ a.name) :
    b ∈ arrivals := by
  rcases List.mem_cons.mp hb with rfl | hb
  · exact absurd rfl hne
  · exact hb

/-- An arrival at a name that was met is passed over. -/
theorem skip (h : Queued edges passes queue pending (a :: arrivals)) (hnot : a.name ∉ pending) :
    Queued edges passes queue pending arrivals where
  ascending := (List.pairwise_cons.mp h.ascending).2
  level b hb c hc := h.level b (List.mem_cons_of_mem _ hb) c (List.mem_cons_of_mem _ hc)
  isWay b hb := h.isWay b (List.mem_cons_of_mem _ hb)
  start name hname hpending :=
    of_mem_cons_of_ne (h.start name hname hpending) fun heq => hnot (heq ▸ hpending)
  edge name hpasses hmet := by
    obtain ⟨way, hleast, hqueued⟩ := h.edge name hpasses hmet
    refine ⟨way, hleast, fun other hedge hpending => ?_⟩
    exact of_mem_cons_of_ne (hqueued other hedge hpending) fun heq => hnot (heq ▸ hpending)

/-- The first arrival has its turn, and the names behind its edges are queued up. -/
theorem visit (h : Queued edges passes queue pending (a :: arrivals)) (hin : a.name ∈ pending)
    (hnodup : pending.Nodup) (hpasses : ∀ name ∈ pending, passes name)
    (hedges : (edges a.name).Pairwise (· < ·)) :
    Queued edges passes queue (pending.erase a.name)
      (arrivals ++ (edges a.name).map a.next) where
  ascending := by
    obtain ⟨-, hrest⟩ := List.pairwise_cons.mp h.ascending
    refine List.pairwise_append.mpr ⟨hrest, ?_, fun b hb c hc => ?_⟩
    · rw [List.pairwise_map]
      exact hedges.imp fun hlt => Precedes.append_left a.way hlt
    · obtain ⟨other, -, rfl⟩ := List.mem_map.mp hc
      exact (h.level b (List.mem_cons_of_mem _ hb) a (List.mem_cons_self ..)).append_singleton _ _
  level b hb c hc := by
    have hfirst := (List.pairwise_cons.mp h.ascending).1
    rcases List.mem_append.mp hb with hb | hb
    · have hlevel := h.level b (List.mem_cons_of_mem _ hb)
      rcases List.mem_append.mp hc with hc | hc
      · exact hlevel c (List.mem_cons_of_mem _ hc)
      · obtain ⟨other, -, rfl⟩ := List.mem_map.mp hc
        exact (hlevel a (List.mem_cons_self ..)).append_right other
    · obtain ⟨other, -, rfl⟩ := List.mem_map.mp hb
      rcases List.mem_append.mp hc with hc | hc
      · exact hfirst c hc
      · obtain ⟨other', -, rfl⟩ := List.mem_map.mp hc
        exact Precedes.append a.way other'
  isWay b hb hpending := by
    have hpending := List.mem_of_mem_erase hpending
    rcases List.mem_append.mp hb with hb | hb
    · exact h.isWay b (List.mem_cons_of_mem _ hb) hpending
    · obtain ⟨other, hedge, rfl⟩ := List.mem_map.mp hb
      exact .edge (h.isWay a (List.mem_cons_self ..) hin) hedge (hpasses other hpending)
  start name hname hpending := by
    obtain ⟨hne, hpending⟩ := hnodup.mem_erase_iff.mp hpending
    exact List.mem_append_left _ (of_mem_cons_of_ne (h.start name hname hpending) hne)
  edge name hname hmet := by
    by_cases heq : name = a.name
    · subst heq
      refine ⟨a.way, fun way hway => h.le_of_way hway hin, fun other hedge _ => ?_⟩
      exact List.mem_append_right _ (List.mem_map_of_mem hedge)
    · have hmet : name ∉ pending := fun hpending =>
        hmet (hnodup.mem_erase_iff.mpr ⟨heq, hpending⟩)
      obtain ⟨way, hleast, hqueued⟩ := h.edge name hname hmet
      refine ⟨way, hleast, fun other hedge hpending => ?_⟩
      obtain ⟨hne, hpending⟩ := hnodup.mem_erase_iff.mp hpending
      exact List.mem_append_left _ (of_mem_cons_of_ne (hqueued other hedge hpending) hne)

/-- A search from a queue takes up names in the order of the first ways to them. -/
theorem pairwise (h : Queued edges passes queue pending arrivals) (hnodup : pending.Nodup)
    (hpasses : ∀ name ∈ pending, passes name)
    (hedges : ∀ name, (edges name).Pairwise (· < ·)) :
    (traverse edges pending (arrivals.map Arrival.name)).Pairwise fun name other =>
      ∃ way, Way edges passes queue way name
        ∧ ∀ way', Way edges passes queue way' other → Precedes way way' := by
  generalize hnames : arrivals.map Arrival.name = names
  fun_induction traverse edges pending names generalizing arrivals with
  | case1 => exact .nil
  | case2 pending name names hin ih =>
    obtain ⟨a, arrivals, rfl, rfl, rfl⟩ := List.map_eq_cons_iff.mp hnames
    have hpassesRest : ∀ other ∈ pending.erase a.name, passes other := fun other hother =>
      hpasses other (List.mem_of_mem_erase hother)
    have hnext := h.visit hin hnodup hpasses (hedges a.name)
    refine List.pairwise_cons.mpr ⟨fun other hother => ?_, ?_⟩
    · obtain ⟨hne, hpending⟩ := hnodup.mem_erase_iff.mp (mem_pending_of_mem_traverse hother)
      refine ⟨a.way, h.isWay a (List.mem_cons_self ..) hin, fun way' hway' => ?_⟩
      rcases h.le_of_way hway' hpending with rfl | hle
      · obtain ⟨names, heq⟩ := hway'.exists_eq
        exact absurd (List.append_singleton_inj.mp heq).2.symm hne
      · exact hle
    · refine ih hnext (hnodup.erase _) hpassesRest ?_
      rw [List.map_append, List.map_map]
      exact congrArg _ (List.map_id _)
  | case3 pending name names hnot ih =>
    obtain ⟨a, arrivals, rfl, rfl, rfl⟩ := List.map_eq_cons_iff.mp hnames
    exact ih (h.skip hnot) hnodup hpasses rfl

end Queued

/-! ### Turns -/

namespace Pass

variable {σ : Type}

/-- Whether the turn of a node came before that of another one. -/
def Before (p : Pass σ) (name other : String) : Prop := [name, other].Sublist p.visited

variable [Store σ]

theorem Run.unique {p last last' : Pass σ} (h : Run p last) (h' : Run p last') : last = last' := by
  induction h with
  | done hnone =>
    cases h' with
    | done => rfl
    | step hstep => simp [hnone] at hstep
  | step hstep _ ih =>
    cases h' with
    | done hnone => simp [hnone] at hstep
    | step hstep' hrun =>
      cases hstep.symm.trans hstep'
      exact ih hrun

/-- A pass that starts at the roots enforces the policy, in the order of the search. -/
theorem of_run_start {w : Workspace} {store : σ} {last : Pass σ} (h : Run (start w store) last) :
    (last.workspace, last.store) = w.comply store ∧ last.visited = w.visitOrder := by
  obtain ⟨last', hrun, hlast⟩ := exists_run_start w store
  exact h.unique hrun ▸ hlast

end Pass

namespace Workspace

/-- The ways from the roots to a node over nodes inside a workspace. -/
def IsWay (w : Workspace) : List String → String → Prop :=
  Way w.edgesOf (fun name => w.inside name = true) w.roots

theorem pairwise_visitOrder {w : Workspace} (h : w.Linked) : w.visitOrder.Pairwise fun name other =>
    ∃ way, w.IsWay way name ∧ ∀ way', w.IsWay way' other → Precedes way way' := by
  have hedges : ∀ name, (w.edgesOf name).Pairwise (· < ·) := by
    intro name
    unfold edgesOf
    split
    next => exact .nil
    next n hn => exact h.pairwise_edges hn
  have hqueued := queued_start w.edgesOf (fun name => (@mem_keys_inside_iff w name).symm)
    h.pairwise_roots
  have horder := hqueued.pairwise (w.nodes.keys_nodup.filter _)
    (fun _ => mem_keys_inside_iff.mp) hedges
  rwa [List.map_map, show Arrival.name ∘ Arrival.mk [] = id from rfl, List.map_id] at horder

section

variable {σ : Type} [Store σ] {w : Workspace} {store : σ} {last : Pass σ} {name other : String}

theorem exists_way_of_before (hrun : Pass.Run (Pass.start w.relink store) last)
    (h : last.Before name other) : ∃ way, w.relink.IsWay way name
      ∧ ∀ way', w.relink.IsWay way' other → Precedes way way' := by
  have hpairwise := pairwise_visitOrder (linked_relink w)
  rw [← (Pass.of_run_start hrun).2, List.pairwise_iff_forall_sublist] at hpairwise
  exact hpairwise h

/-- A node has its turn before those to which all ways pass it. -/
theorem before_of_forall_mem (hrun : Pass.Run (Pass.start w.relink store) last)
    (hname : name ∈ last.visited) (hother : other ∈ last.visited) (hne : name ≠ other)
    (h : ∀ way, w.relink.IsWay way other → name ∈ way) : last.Before name other := by
  refine (sublist_or_sublist hname hother hne).resolve_right fun hafter => ?_
  obtain ⟨way, hway, hfirst⟩ := exists_way_of_before hrun hafter
  obtain ⟨start, hstart, rfl | hbefore⟩ := hway.exists_start (h way hway)
  · exact (hfirst start hstart).asymm (hfirst start hstart)
  · exact (hfirst start hstart).asymm hbefore

/-- One of two nodes that have a turn has its turn first exactly if a way to it goes before all ways
to the other one. -/
theorem before_iff (hrun : Pass.Run (Pass.start w.relink store) last)
    (hname : name ∈ last.visited) (hother : other ∈ last.visited) (hne : name ≠ other) :
    (last.workspace, last.store) = w.relink.comply store
      ∧ (last.Before name other ↔ ∃ way, w.relink.IsWay way name
        ∧ ∀ way', w.relink.IsWay way' other → Precedes way way') := by
  refine ⟨(Pass.of_run_start hrun).1, exists_way_of_before hrun, fun hway => ?_⟩
  refine (sublist_or_sublist hname hother hne).resolve_right fun hafter => ?_
  -- each of the two nodes would have a way that goes before the other one's
  obtain ⟨way, hway, hfirst⟩ := hway
  obtain ⟨way', hway', hfirst'⟩ := exists_way_of_before hrun hafter
  exact (hfirst' way hway).asymm (hfirst way' hway')

end

theorem visitOrder_shortcut : shortcut.relink.visitOrder = ["app", "core", "login"] := by
  obtain ⟨⟨-, hinside⟩, hroots, happ, hcore, hlogin⟩ := graph_shortcut
  simp [visitOrder, hinside, hroots, happ, hcore, hlogin, traverse]

theorem exists_run_shortcut : ∃ last, Pass.Run (Pass.start shortcut.relink shortcutFiles) last
    ∧ last.visited = ["app", "core", "login"] := by
  obtain ⟨last, hrun, -, horder⟩ := Pass.exists_run_start shortcut.relink shortcutFiles
  exact ⟨last, hrun, horder.trans visitOrder_shortcut⟩

theorem before_iff_shortcut :
    ∃ last, Pass.Run (Pass.start shortcut.relink shortcutFiles) last
      ∧ "core" ∈ last.visited ∧ "login" ∈ last.visited ∧ last.Before "core" "login"
      ∧ ∃ way, shortcut.relink.IsWay way "core"
        ∧ ∀ way', shortcut.relink.IsWay way' "login" → Precedes way way' := by
  obtain ⟨last, hrun, hvisited⟩ := exists_run_shortcut
  have hcore : "core" ∈ last.visited := by simp [hvisited]
  have hlogin : "login" ∈ last.visited := by simp [hvisited]
  have hbefore : last.Before "core" "login" := by
    unfold Pass.Before
    rw [hvisited]
    decide
  have h := before_iff hrun hcore hlogin (by decide)
  exact ⟨last, hrun, hcore, hlogin, hbefore, h.2.mp hbefore⟩

/-- A node may have its turn after one that it declares, though no node depends on itself. -/
theorem exists_declared_before :
    ¬∀ (w : Workspace) (s : Shelf) (last : Pass Shelf), w.Acyclic →
      Pass.Run (Pass.start w.relink s) last → ∀ name ∈ last.visited, ∀ other ∈ last.visited,
        w.Depends name other → last.Before name other := by
  intro h
  obtain ⟨last, hrun, hvisited⟩ := exists_run_shortcut
  have hdepends : shortcut.Depends "login" "core" := by
    rw [depends_iff_mem_edges, graph_shortcut.2.2.2.2]
    exact List.mem_cons_self ..
  have hbefore := h shortcut shortcutFiles last acyclic_shortcut hrun "login" (by simp [hvisited])
    "core" (by simp [hvisited]) hdepends
  unfold Pass.Before at hbefore
  rw [hvisited] at hbefore
  exact absurd hbefore (by decide)

end Workspace

end Inclusion
