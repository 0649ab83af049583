import Inclusion.Proofs.Text
import Inclusion.Settings.Reconcile
import Mathlib.Data.List.TakeWhile

/-!
# What a settings file says

The reader takes a file piece by piece and keeps just one thing in mind: whether an include
statement is open. So a file says what its pieces name while a statement is open and which projects
they bind, the last binding of a name being the one that counts. The statements that the writer
makes are read for what they are.

* `linePieces_flatMap`: the pieces of consecutive lines are those of each line.
* `ofLines_congr`: what lines register depends on their pieces alone.
* `mem_internal_ofLines`, `mem_all_ofLines`, `directory?_ofLines`: what the lines of a file
  register.
-/
namespace Inclusion.Settings

open Text

/-- The names that pieces register by naming them, given whether a statement is open. -/
def named : Bool → List Piece → List String
  | _, [] => []
  | continuing, .blank :: ps => named continuing ps
  | true, .bareName name :: ps => name :: named true ps
  | false, .bareName _ :: ps => named false ps
  | _, .opening name :: ps => name :: named true ps
  | _, .binding _ _ :: ps => named false ps
  | _, .other :: ps => named false ps

/-- Whether a statement is open after pieces, given whether one was before. -/
def openAfter : Bool → List Piece → Bool
  | continuing, [] => continuing
  | continuing, .blank :: ps => openAfter continuing ps
  | continuing, .bareName _ :: ps => openAfter continuing ps
  | _, .opening _ :: ps => openAfter true ps
  | _, .binding _ _ :: ps => openAfter false ps
  | _, .other :: ps => openAfter false ps

/-- The projects that a piece binds, none or one. -/
def Piece.bindings : Piece → List (String × String)
  | .binding name path => [(name, path)]
  | _ => []

/-- The projects that pieces bind, in order. -/
def bound (ps : List Piece) : List (String × String) := ps.flatMap Piece.bindings

/-! ### What a scan registers -/

theorem foldl_step (texts : List String) (s : Scan) (n : String) :
    (n ∈ (texts.foldl Scan.step s).snapshot.all ↔ n ∈ s.snapshot.all
        ∨ n ∈ named s.continuing (texts.map Piece.ofText)
        ∨ n ∈ (bound (texts.map Piece.ofText)).map Prod.fst)
      ∧ (n ∈ (texts.foldl Scan.step s).snapshot.internal ↔ n ∈ s.snapshot.internal
        ∨ n ∈ named s.continuing (texts.map Piece.ofText))
      ∧ (texts.foldl Scan.step s).snapshot.directory? n
        = ((bound (texts.map Piece.ofText)).reverse.lookup n).or (s.snapshot.directory? n) := by
  induction texts generalizing s with
  | nil => simp [named, bound]
  | cons text texts ih =>
    obtain ⟨hall, hinternal, hdirectory⟩ := ih (s.step text)
    rw [List.foldl_cons, hall, hinternal, hdirectory, List.map_cons]
    cases hp : Piece.ofText text with
    | blank => simp [Scan.step, Scan.take, hp, named, bound, Piece.bindings]
    | bareName name =>
      cases hc : s.continuing with
      | true =>
        simp [Scan.step, Scan.take, hp, hc, named, bound, Piece.bindings, Snapshot.addInternal,
          mem_addNew, Snapshot.directory?, or_assoc]
      | false => simp [Scan.step, Scan.take, hp, hc, named, bound, Piece.bindings]
    | opening name =>
      simp [Scan.step, Scan.take, hp, named, bound, Piece.bindings, Snapshot.addInternal,
        mem_addNew, Snapshot.directory?, or_assoc]
    | binding name path =>
      simp only [Scan.step, Scan.take, hp, named, bound, Piece.bindings, Snapshot.addExternal,
        mem_addNew, Snapshot.directory?, lookup_bindTo, List.flatMap_cons, List.cons_append,
        List.nil_append, List.map_cons, List.mem_cons, List.reverse_cons, List.lookup_append,
        NameMap.lookup_cons, List.lookup_nil]
      refine ⟨by grind, trivial, ?_⟩
      by_cases hn : n = name
      · cases ((texts.map Piece.ofText).flatMap Piece.bindings).reverse.lookup n <;> simp [hn]
      · cases ((texts.map Piece.ofText).flatMap Piece.bindings).reverse.lookup n <;> simp [hn]
    | other => simp [Scan.step, Scan.take, hp, named, bound, Piece.bindings]

/-! ### Blank pieces say nothing -/

theorem named_filter (continuing : Bool) (ps : List Piece) :
    named continuing (ps.filter (· != .blank)) = named continuing ps := by
  induction ps generalizing continuing with
  | nil => rfl
  | cons p ps ih =>
    cases p <;> cases continuing <;> simp [named, ih]

theorem bound_filter (ps : List Piece) : bound (ps.filter (· != .blank)) = bound ps := by
  induction ps with
  | nil => rfl
  | cons p ps ih =>
    cases p <;> simp_all [bound, Piece.bindings]

theorem linePieces_eq (line : String) :
    linePieces line = ((pieces line).map Piece.ofText).filter (· != .blank) := by
  simp [linePieces, pieces, Piece.ofText, Function.comp_def]

theorem linePieces_flatMap (lines : List String) :
    lines.flatMap linePieces
      = ((lines.flatMap pieces).map Piece.ofText).filter (· != .blank) := by
  rw [List.map_flatMap, List.filter_flatMap]
  exact congrArg (lines.flatMap ·) (funext linePieces_eq)

/-- What pieces register on top of a snapshot, given whether a statement is open. -/
def Snapshot.extend (s : Snapshot) : Bool → List Piece → Snapshot
  | _, [] => s
  | continuing, .blank :: ps => Snapshot.extend s continuing ps
  | true, .bareName name :: ps => Snapshot.extend (s.addInternal name) true ps
  | false, .bareName _ :: ps => Snapshot.extend s false ps
  | _, .opening name :: ps => Snapshot.extend (s.addInternal name) true ps
  | _, .binding name path :: ps => Snapshot.extend (s.addExternal name path) false ps
  | _, .other :: ps => Snapshot.extend s false ps

theorem snapshot_foldl_step (texts : List String) (s : Scan) :
    (texts.foldl Scan.step s).snapshot
      = s.snapshot.extend s.continuing (texts.map Piece.ofText) := by
  induction texts generalizing s with
  | nil => cases s.continuing <;> rfl
  | cons text texts ih =>
    rw [List.foldl_cons, ih, List.map_cons, Scan.step]
    cases Piece.ofText text <;> cases h : s.continuing <;> simp [Scan.take, Snapshot.extend, h]

theorem extend_filter (s : Snapshot) (continuing : Bool) (ps : List Piece) :
    s.extend continuing (ps.filter (· != .blank)) = s.extend continuing ps := by
  induction ps generalizing s continuing with
  | nil => rfl
  | cons p ps ih => cases p <;> cases continuing <;> simp [Snapshot.extend, ih]

/-- The snapshot of lines depends on their pieces alone. -/
theorem ofLines_eq (lines : List String) :
    Snapshot.ofLines lines = Snapshot.extend {} false (lines.flatMap linePieces) := by
  rw [linePieces_flatMap, extend_filter]
  exact snapshot_foldl_step (lines.flatMap pieces) {}

theorem ofLines_congr {lines lines' : List String}
    (h : lines.flatMap linePieces = lines'.flatMap linePieces) :
    Snapshot.ofLines lines = Snapshot.ofLines lines' := by
  rw [ofLines_eq, ofLines_eq, h]

section

variable (lines : List String) (n : String)

theorem mem_internal_ofLines :
    n ∈ (Snapshot.ofLines lines).internal ↔ n ∈ named false (lines.flatMap linePieces) := by
  rw [linePieces_flatMap, named_filter]
  refine (foldl_step (lines.flatMap pieces) {} n).2.1.trans ?_
  simp

theorem mem_all_ofLines :
    n ∈ (Snapshot.ofLines lines).all ↔ n ∈ named false (lines.flatMap linePieces)
      ∨ n ∈ (bound (lines.flatMap linePieces)).map Prod.fst := by
  rw [linePieces_flatMap, named_filter, bound_filter]
  refine (foldl_step (lines.flatMap pieces) {} n).1.trans ?_
  simp

theorem directory?_ofLines :
    (Snapshot.ofLines lines).directory? n
      = (bound (lines.flatMap linePieces)).reverse.lookup n := by
  rw [linePieces_flatMap, bound_filter]
  refine (foldl_step (lines.flatMap pieces) {} n).2.2.trans ?_
  simp [Snapshot.directory?]

end

theorem named_append (continuing : Bool) (ps qs : List Piece) :
    named continuing (ps ++ qs) = named continuing ps ++ named (openAfter continuing ps) qs := by
  induction ps generalizing continuing with
  | nil => rfl
  | cons p ps ih => cases p <;> cases continuing <;> simp [named, openAfter, ih]

theorem bound_append (ps qs : List Piece) : bound (ps ++ qs) = bound ps ++ bound qs :=
  List.flatMap_append

theorem bound_flatMap {α : Type} (l : List α) (f : α → List Piece) :
    bound (l.flatMap f) = l.flatMap fun x => bound (f x) := List.flatMap_assoc

end Inclusion.Settings
