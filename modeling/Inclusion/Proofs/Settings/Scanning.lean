import Inclusion.Proofs.Settings.Reading
import Mathlib.Data.List.Basic
import Mathlib.Data.List.Induction

/-!
# What a scan registers and reports

A scan only keeps in mind whether an include statement is open. Whether one is open where a piece
stands can be seen from the pieces before it: the last one that is neither blank nor a bare name
opens one. So each piece says by itself what it registers or why it is reported, and the lists of a
snapshot are what the pieces say, every name in the place of its first occurrence.

* `collect_concat`: what pieces say, one piece further.
* `eraseDups_append_eq_foldl`: names are kept in the order of their first occurrences.
* `Scan.all_step` to `Scan.continuing_step`: what one piece does to each part of a scan.
* `scan_concat_bareName`: a bare name is registered or reported.
* `scan_reads`: the snapshot and the reports of a scan.
-/
namespace Inclusion.Settings

open Text

/-! ### What a piece says where it stands -/

/-- Whether a piece settles if a statement is open behind it. -/
def Piece.isSettling : Piece → Bool
  | .blank | .bareName _ => false
  | .opening _ | .binding _ _ | .other => true

/-- Whether the last piece that is neither blank nor a bare name opens an include statement. -/
def isOpenBehind (texts : List String) : Bool :=
  match ((texts.map Piece.ofText).filter Piece.isSettling).getLast? with
  | some (.opening _) => true
  | _ => false

/-- The projects that a piece registers by naming them, given whether a statement is open before it. -/
def namedBy (isOpen : Bool) (text : String) : List String :=
  match Piece.ofText text with
  | .opening name => [name]
  | .bareName name => if isOpen then [name] else []
  | _ => []

/-- The projects that a piece binds to a directory. -/
def boundBy (text : String) : List (String × String) := (Piece.ofText text).bindings

/-- The projects that a piece registers in any way. -/
def registeredBy (isOpen : Bool) (text : String) : List String :=
  namedBy isOpen text ++ (boundBy text).map Prod.fst

/-- The report of a bare name before which no statement is open. -/
def reportedBy (isOpen : Bool) (text : String) : List String :=
  match Piece.ofText text with
  | .bareName _ => if isOpen then [] else [String.ofList (trim text.toList)]
  | _ => []

/-- What pieces say, in order, each one given whether a statement is open behind those before it. -/
def collect (say : Bool → String → List String) (texts : List String) : List String :=
  texts.zipIdx.flatMap fun t => say (isOpenBehind (texts.take t.2)) t.1

theorem collect_concat (say : Bool → String → List String) (texts : List String) (text : String) :
    collect say (texts ++ [text]) = collect say texts ++ say (isOpenBehind texts) text := by
  have hbefore : ∀ t ∈ texts.zipIdx, (texts ++ [text]).take t.2 = texts.take t.2 := fun t ht => by
    have hlt : t.2 < texts.length := by simpa using (List.mem_zipIdx ht).2.1
    exact List.take_append_of_le_length hlt.le
  rw [collect, List.zipIdx_append, List.flatMap_append,
    List.flatMap_congr fun t ht => by rw [hbefore t ht], collect]
  simp

theorem isOpenBehind_concat (texts : List String) (text : String) :
    isOpenBehind (texts ++ [text]) = match Piece.ofText text with
      | .blank | .bareName _ => isOpenBehind texts
      | .opening _ => true
      | .binding _ _ | .other => false := by
  unfold isOpenBehind
  rw [List.map_append, List.filter_append]
  cases hp : Piece.ofText text <;> simp [hp, Piece.isSettling]

/-! ### Names in the order of their first occurrences -/

theorem eraseDups_append_eq_foldl (names more : List String) :
    (names ++ more).eraseDups = more.foldl addNew names.eraseDups := by
  induction more using List.reverseRecOn with
  | nil => rw [List.append_nil, List.foldl_nil]
  | append_singleton more name ih =>
    have hmem : name ∈ (names ++ more).eraseDups ↔ name ∈ names ++ more := List.mem_eraseDups
    rw [List.foldl_append, List.foldl_cons, List.foldl_nil, ← ih, addNew, ← List.append_assoc,
      List.eraseDups_append]
    by_cases h : name ∈ names ++ more
    · have hnone : [name].removeAll (names ++ more) = [] := by
        simpa [List.removeAll, List.filter_eq_nil_iff, or_iff_not_imp_left] using h
      rw [if_pos (hmem.mpr h), hnone, List.eraseDups_nil, List.append_nil]
    · have hone : [name].removeAll (names ++ more) = [name] := by
        simpa [List.removeAll, List.filter_eq_self] using h
      rw [if_neg (hmem.not.mpr h), hone]
      rfl

/-! ### One piece further -/

section

variable (s : Scan) (text : String)

theorem Scan.all_step : (s.step text).snapshot.all
    = (registeredBy s.continuing text).foldl addNew s.snapshot.all := by
  unfold Scan.step registeredBy namedBy boundBy
  obtain ⟨_, _ | _, _⟩ := s <;> cases Piece.ofText text <;> rfl

theorem Scan.internal_step : (s.step text).snapshot.internal
    = (namedBy s.continuing text).foldl addNew s.snapshot.internal := by
  unfold Scan.step namedBy
  obtain ⟨_, _ | _, _⟩ := s <;> cases Piece.ofText text <;> rfl

theorem Scan.map_fst_external_step : (s.step text).snapshot.external.map Prod.fst
    = ((boundBy text).map Prod.fst).foldl addNew (s.snapshot.external.map Prod.fst) := by
  unfold Scan.step boundBy
  cases Piece.ofText text with
  | binding name path => exact map_fst_bindTo s.snapshot.external name path
  | bareName _ => obtain ⟨_, _ | _, _⟩ := s <;> rfl
  | blank | opening _ | other => rfl

theorem Scan.directory?_step (name : String) : (s.step text).snapshot.directory? name
    = ((boundBy text).reverse.lookup name).or (s.snapshot.directory? name) := by
  unfold Scan.step boundBy
  cases Piece.ofText text with
  | binding bound path =>
    refine (lookup_bindTo s.snapshot.external bound path name).trans ?_
    rw [Piece.bindings, List.reverse_singleton, NameMap.lookup_cons]
    by_cases h : name = bound
    · rw [if_pos h, if_pos h, Option.some_or]
    · rw [if_neg h, if_neg h, List.lookup_nil, Option.none_or]
      rfl
  | bareName _ => obtain ⟨_, _ | _, _⟩ := s <;> rfl
  | blank | opening _ | other => rfl

theorem Scan.strays_step : (s.step text).strays = s.strays ++ reportedBy s.continuing text := by
  unfold Scan.step reportedBy
  cases Piece.ofText text with
  | bareName name =>
    obtain ⟨_, _ | _, strays⟩ := s
    · rfl
    · exact (List.append_nil strays).symm
  | blank | opening _ | binding _ _ | other => exact (List.append_nil s.strays).symm

theorem Scan.continuing_step : (s.step text).continuing = match Piece.ofText text with
    | .blank | .bareName _ => s.continuing
    | .opening _ => true
    | .binding _ _ | .other => false := by
  unfold Scan.step
  obtain ⟨_, _ | _, _⟩ := s <;> cases Piece.ofText text <;> rfl

end

/-! ### A whole scan -/

/-- What a scan of pieces comes to, read off the pieces. -/
structure Scan.Reads (s : Scan) (texts : List String) : Prop where
  all : s.snapshot.all = (collect registeredBy texts).eraseDups
  internal : s.snapshot.internal = (collect namedBy texts).eraseDups
  bound : s.snapshot.external.map Prod.fst = ((texts.flatMap boundBy).map Prod.fst).eraseDups
  directory : ∀ name, s.snapshot.directory? name = (texts.flatMap boundBy).reverse.lookup name
  strays : s.strays = collect reportedBy texts
  continuing : s.continuing = isOpenBehind texts

theorem Scan.Reads.step {s : Scan} {texts : List String} (h : s.Reads texts) (text : String) :
    (s.step text).Reads (texts ++ [text]) where
  all := by
    rw [Scan.all_step, h.all, h.continuing, collect_concat, eraseDups_append_eq_foldl]
  internal := by
    rw [Scan.internal_step, h.internal, h.continuing, collect_concat, eraseDups_append_eq_foldl]
  bound := by
    rw [Scan.map_fst_external_step, h.bound, List.flatMap_append, List.flatMap_singleton,
      List.map_append, eraseDups_append_eq_foldl]
  directory name := by
    rw [Scan.directory?_step, h.directory, List.flatMap_append, List.flatMap_singleton,
      List.reverse_append, List.lookup_append]
  strays := by rw [Scan.strays_step, h.strays, h.continuing, collect_concat]
  continuing := by rw [Scan.continuing_step, isOpenBehind_concat, h.continuing]

theorem scan_concat (texts : List String) (text : String) :
    scan (texts ++ [text]) = (scan texts).step text := scan_append texts [text]

theorem Scan.reads_scan (texts : List String) : (scan texts).Reads texts := by
  induction texts using List.reverseRecOn with
  | nil => exact ⟨rfl, rfl, rfl, fun _ => rfl, rfl, rfl⟩
  | append_singleton texts text ih => exact scan_concat texts text ▸ ih.step text

/-- A bare name is registered if a statement is open behind the pieces before it, and reported if
not. -/
theorem scan_concat_bareName {text name : String} (h : Piece.ofText text = .bareName name)
    (texts : List String) : scan (texts ++ [text])
      = if isOpenBehind texts then
          { scan texts with snapshot := (scan texts).snapshot.addInternal name }
        else { scan texts with strays := (scan texts).strays ++ [String.ofList (trim text.toList)] } := by
  rw [scan_concat, Scan.step, h, ← (Scan.reads_scan texts).continuing]
  rfl

/-- What a scan registers and reports: a bare name is registered exactly if the last piece before it
that is neither blank nor a bare name opens an include statement, and is reported once if not; the
lists of the snapshot hold what the pieces register, in the order of first occurrence, each bound
project with its last directory. -/
theorem scan_reads :
    (∀ before text name, Piece.ofText text = .bareName name →
      scan (before ++ [text]) = if isOpenBehind before then
          { scan before with snapshot := (scan before).snapshot.addInternal name }
        else { scan before with
          strays := (scan before).strays ++ [String.ofList (trim text.toList)] })
    ∧ ∀ texts,
      (scan texts).snapshot.all = (collect registeredBy texts).eraseDups
      ∧ (scan texts).snapshot.internal = (collect namedBy texts).eraseDups
      ∧ (scan texts).snapshot.external.map Prod.fst
        = ((texts.flatMap boundBy).map Prod.fst).eraseDups
      ∧ (∀ name, (scan texts).snapshot.directory? name
        = (texts.flatMap boundBy).reverse.lookup name)
      ∧ (scan texts).strays = collect reportedBy texts := by
  refine ⟨fun before text name h => scan_concat_bareName h before, fun texts => ?_⟩
  have h := Scan.reads_scan texts
  exact ⟨h.all, h.internal, h.bound, h.directory, h.strays⟩

/-- A blank piece leaves a statement open, and a line of another kind ends it. -/
theorem scan_reads_login :
    (scan ["include ':app'", "", " ':login'"]).snapshot
      = (scan ["include ':app'", ""]).snapshot.addInternal "login"
    ∧ (scan ["include ':app'", "", " ':login'", "apply plugin", "':core'"]).snapshot.all
      = ["app", "login"]
    ∧ (scan ["include ':app'", "", " ':login'", "apply plugin", "':core'"]).strays
      = ["':core'"] := by
  have hlogin := scan_reads.1 ["include ':app'", ""] " ':login'" "login" (by decide)
  rw [if_pos (by decide)] at hlogin
  have hrest := scan_reads.2 ["include ':app'", "", " ':login'", "apply plugin", "':core'"]
  exact ⟨congrArg Scan.snapshot hlogin, hrest.1.trans (by decide),
    hrest.2.2.2.2.trans (by decide)⟩

end Inclusion.Settings
