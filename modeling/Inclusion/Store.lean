import Inclusion.Error

/-!
# Stores of text files

A store reads files as lines and replaces the text of files that exist. A write either yields the
new store or fails and leaves the old one as the only one there is. Stores that can also create
files are what a new workspace needs.
-/
namespace Inclusion

/-- Files that are read and written as lines. -/
class Store (σ : Type) where
  read : σ → Path → Except Error (List String)
  /-- Replaces the text of a file that exists. -/
  write : σ → Path → List String → Except Error σ

/-- A store that can also make files. -/
class CreatingStore (σ : Type) extends Store σ where
  /-- Whether there is a file, or anything else, at a path. -/
  holds : σ → Path → Bool
  create : σ → Path → String → Except Error σ

end Inclusion
