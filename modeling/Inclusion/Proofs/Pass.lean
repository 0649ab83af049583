import Inclusion.Proofs.Shape
import Mathlib.Order.WellFounded

/-!
# A pass over the nodes, one at a time

The policy is enforced while the nodes are being found: a name is taken from a queue that starts as
the roots, a node inside whose turn has not come yet is brought in line, and the nodes behind its
edges are queued up. The queue may hold a name many times and the edges may run in circles; still
every step uses up a node that is yet to come or, failing that, a place in the queue.

* `step_of_cons`: all that a step can do.
* `step_wellFounded`: no pass goes on for ever.
* `exists_run`, `exists_run_start`: from wherever a pass stands, it goes on to the nodes that a search
  meets.
* `run_start_comply`: a pass brings each node that is met in line once, and no other.
-/
namespace Inclusion

/-- How far a pass has come. -/
structure Pass (σ : Type) where
  workspace : Workspace
  store : σ
  queue : List String
  /-- The nodes whose turn has come, each with what enforcing the policy on it gave. -/
  outcomes : List (String × Except Error Nat) := []

namespace Pass

variable {σ : Type}

/-- The nodes whose turn has come, in order. -/
def visited (p : Pass σ) : List String := p.outcomes.map Prod.fst

/-- The nodes inside whose turn has not come. -/
def remaining (p : Pass σ) : List String :=
  (p.workspace.nodes.keys.filter p.workspace.inside).filter (· ∉ p.visited)

theorem mem_remaining_iff {p : Pass σ} {name : String} :
    name ∈ p.remaining ↔ p.workspace.inside name = true ∧ name ∉ p.visited := by
  rw [remaining, List.mem_filter, Workspace.mem_keys_inside_iff, decide_eq_true_eq]

theorem nodup_remaining (p : Pass σ) : p.remaining.Nodup :=
  (p.workspace.nodes.keys_nodup.filter _).filter _

variable [Store σ]

def start (w : Workspace) (store : σ) : Pass σ := { workspace := w, store, queue := w.roots }

/-- Takes the next name from the queue. Whether enforcing the policy on a node succeeds or not, the
pass goes on behind it. -/
def step (p : Pass σ) : Option (Pass σ) :=
  match p.queue with
  | [] => none
  | name :: queue =>
    match p.workspace.nodes.get? name with
    | none => some { p with queue }
    | some n =>
      if name ∈ p.visited ∨ p.workspace.inside name = false then some { p with queue }
      else
        let (outcome, n, store) := n.enforce p.store p.workspace.policy
        some { workspace := { p.workspace with nodes := p.workspace.nodes.insert name n }, store,
               queue := queue ++ n.edges, outcomes := p.outcomes ++ [(name, outcome)] }

/-- A pass that goes on until its queue is empty. -/
inductive Run : Pass σ → Pass σ → Prop
  | done {p : Pass σ} (h : p.step = none) : Run p p
  | step {p q last : Pass σ} (h : p.step = some q) (hrun : Run q last) : Run p last

/-- The pass after the turn of a node. -/
def turn (p : Pass σ) (name : String) (queue : List String) (outcome : Except Error Nat) :
    Pass σ where
  workspace := (p.workspace.enforceOn p.store name).1
  store := (p.workspace.enforceOn p.store name).2
  queue := queue ++ p.workspace.edgesOf name
  outcomes := p.outcomes ++ [(name, outcome)]

/-- A step passes over a name unless it is that of a node inside whose turn has not come. -/
theorem step_of_cons {p : Pass σ} {name : String} {queue : List String}
    (h : p.queue = name :: queue) :
    name ∉ p.remaining ∧ p.step = some { p with queue }
      ∨ name ∈ p.remaining ∧ ∃ outcome, p.step = some (p.turn name queue outcome) := by
  cases hn : p.workspace.nodes.get? name with
  | none =>
    refine .inl ⟨fun hmem => ?_, by simp only [step, h, hn]⟩
    have hinside := (mem_remaining_iff.mp hmem).1
    simp [Workspace.inside, hn] at hinside
  | some n =>
    by_cases hskip : name ∈ p.visited ∨ p.workspace.inside name = false
    · refine .inl ⟨fun hmem => ?_, by simp only [step, h, hn, if_pos hskip]⟩
      obtain ⟨hinside, hvisited⟩ := mem_remaining_iff.mp hmem
      simp [hinside, hvisited] at hskip
    · refine .inr ⟨mem_remaining_iff.mpr (by simpa [and_comm] using hskip), ?_⟩
      refine ⟨(n.enforce p.store p.workspace.policy).1, ?_⟩
      simp only [step, h, hn, if_neg hskip, turn, Workspace.enforceOn, Workspace.edgesOf]
      rfl

/-! ### What a turn leaves alone -/

theorem shape_enforceOn (w : Workspace) (store : σ) (name : String) :
    (w.enforceOn store name).1.shape = w.shape :=
  Workspace.shape_of_restyled (Workspace.restyled_enforceOn w store name)

theorem inside_enforceOn (w : Workspace) (store : σ) (name : String) :
    (w.enforceOn store name).1.inside = w.inside :=
  Workspace.inside_congr (shape_enforceOn w store name) (Workspace.enforceOn_included w store name)

theorem edgesOf_enforceOn (w : Workspace) (store : σ) (name : String) :
    (w.enforceOn store name).1.edgesOf = w.edgesOf :=
  Workspace.edgesOf_of_restyled (Workspace.restyled_enforceOn w store name)

/-- The turn of a node takes it from those to come. -/
theorem remaining_turn (p : Pass σ) (name : String) (queue : List String)
    (outcome : Except Error Nat) :
    (p.turn name queue outcome).remaining = p.remaining.erase name := by
  have hkeys : (p.turn name queue outcome).workspace.nodes.keys = p.workspace.nodes.keys := by
    rw [← Workspace.keys_shape, ← Workspace.keys_shape]
    exact congrArg NameMap.keys (shape_enforceOn p.workspace p.store name)
  have hinside : (p.turn name queue outcome).workspace.inside = p.workspace.inside :=
    inside_enforceOn p.workspace p.store name
  rw [(nodup_remaining p).erase_eq_filter, remaining, remaining, hkeys, hinside,
    List.filter_filter (p := (· != name))]
  refine List.filter_congr fun k _ => ?_
  have hvisited : k ∈ (p.turn name queue outcome).visited ↔ k ∈ p.visited ∨ k = name := by
    simp [turn, visited]
  rw [Bool.eq_iff_iff, Bool.and_eq_true, bne_iff_ne, decide_eq_true_iff, decide_eq_true_iff,
    hvisited, not_or, and_comm]

/-! ### The end of a pass -/

/-- A step uses up a node that is yet to come or, failing that, a place in the queue. -/
theorem step_decreases {p q : Pass σ} (h : p.step = some q) :
    Prod.Lex (· < ·) (· < ·) (q.remaining.length, q.queue.length)
      (p.remaining.length, p.queue.length) := by
  cases hqueue : p.queue with
  | nil => simp [step, hqueue] at h
  | cons name queue =>
    rcases step_of_cons hqueue with ⟨-, hstep⟩ | ⟨hmem, outcome, hstep⟩
    · cases h.symm.trans hstep
      exact .right _ (Nat.lt_succ_self _)
    · cases h.symm.trans hstep
      refine .left _ _ ?_
      rw [remaining_turn, List.length_erase_of_mem hmem]
      exact Nat.sub_one_lt fun hzero => by simp [List.eq_nil_of_length_eq_zero hzero] at hmem

theorem step_wellFounded : WellFounded fun q p : Pass σ => p.step = some q :=
  Subrelation.wf step_decreases
    (InvImage.wf (fun p : Pass σ => (p.remaining.length, p.queue.length))
      (Prod.lex ⟨_, wellFounded_lt⟩ ⟨_, wellFounded_lt⟩).wf)

/-- From wherever it stands, a pass goes on to the nodes that a search from its queue meets among
those to come. -/
theorem exists_run (p : Pass σ) :
    ∃ last, Run p last
      ∧ last.visited
        = p.visited ++ traverse p.workspace.edgesOf p.remaining p.queue
      ∧ (last.workspace, last.store)
        = p.workspace.enforceAll p.store (traverse p.workspace.edgesOf p.remaining p.queue) := by
  refine step_wellFounded.induction (C := fun p : Pass σ => ∃ last, Run p last
      ∧ last.visited = p.visited ++ traverse p.workspace.edgesOf p.remaining p.queue
      ∧ (last.workspace, last.store)
        = p.workspace.enforceAll p.store (traverse p.workspace.edgesOf p.remaining p.queue))
    p fun p ih => ?_
  cases hqueue : p.queue with
  | nil => exact ⟨p, .done (by simp [step, hqueue]), by simp [traverse], by simp [traverse]; rfl⟩
  | cons name queue =>
    rcases step_of_cons hqueue with ⟨hnot, hstep⟩ | ⟨hmem, outcome, hstep⟩
    · obtain ⟨last, hrun, hvisited, hlast⟩ := ih _ hstep
      rw [traverse, if_neg hnot]
      exact ⟨last, .step hstep hrun, hvisited, hlast⟩
    · obtain ⟨last, hrun, hvisited, hlast⟩ := ih _ hstep
      have hedges : (p.turn name queue outcome).workspace.edgesOf = p.workspace.edgesOf :=
        edgesOf_enforceOn p.workspace p.store name
      rw [remaining_turn, hedges] at hvisited hlast
      rw [traverse, if_pos hmem]
      refine ⟨last, .step hstep hrun, hvisited.trans ?_, hlast⟩
      simp [turn, visited]

/-- A pass that starts at the roots of a workspace does what enforcing the policy does. -/
theorem exists_run_start (w : Workspace) (store : σ) :
    ∃ last, Run (start w store) last ∧ (last.workspace, last.store) = w.comply store
      ∧ last.visited = w.visitOrder := by
  obtain ⟨last, hrun, hvisited, hlast⟩ := exists_run (start w store)
  have hremaining : (start w store).remaining = w.nodes.keys.filter w.inside := by
    simp [remaining, start, visited]
  rw [hremaining] at hvisited hlast
  exact ⟨last, hrun, hlast, hvisited⟩

/-- Every pass ends, wherever it stands. One that starts at the roots of a workspace does what
enforcing the policy does: each node inside that can be reached from a root inside without leaving
the workspace has its turn once, whatever comes of it, and no other node has. -/
theorem run_start_comply (w : Workspace) (store : σ) :
    (WellFounded fun q p : Pass σ => p.step = some q) ∧
      ∃ last, Run (start w store) last ∧ (last.workspace, last.store) = w.comply store
        ∧ last.visited.Nodup ∧ ∀ name, name ∈ last.visited ↔ w.IsMet name := by
  obtain ⟨last, hrun, hlast, horder⟩ := exists_run_start w store
  refine ⟨step_wellFounded, last, hrun, hlast, ?_, fun name => ?_⟩
  · exact horder ▸ w.visitOrder_nodup
  · rw [horder, Workspace.mem_visitOrder_iff]

end Pass

end Inclusion
