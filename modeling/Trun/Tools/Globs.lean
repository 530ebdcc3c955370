import Mathlib.Algebra.Ring.Nat
import Mathlib.Data.List.Sort
import Mathlib.Data.Nat.Basic
import Mathlib.Order.Lattice
import Trun.Python.Dict

/-!
# Narrowing a glob

`_constrain_glob`, with the globs and the paths as lists of characters.
-/

namespace Trun.Tools

abbrev Text := List Char

/-- `[0-9]`. -/
def wildcard : Text := ['[', '0', '-', '9', ']']

def find (part : Text) : Text → Option ℕ
  | [] => none
  | c :: rest => if part.isPrefixOf (c :: rest) then some 0 else (find part rest).map (· + 1)

/-- `text.replace(part, by, 1)`. -/
def replaceFirst (part replacement : Text) : Text → Text
  | [] => []
  | c :: rest =>
    if part.isPrefixOf (c :: rest) then replacement ++ (c :: rest).drop part.length
    else c :: replaceFirst part replacement rest

/-- `sorted(set(chars))`. -/
def sortedSet (chars : List Char) : List Char := chars.dedup.insertionSort (· ≤ ·)

def digitSetWildcard (chars : List Char) : Text :=
  let chars := chars.insertionSort (· ≤ ·)
  match chars.head?, chars.getLast? with
  | some first, some last =>
    if 1 < chars.length ∧ last.toNat - first.toNat = chars.length - 1 then
      ['[', first, '-', last, ']']
    else '[' :: chars ++ [']']
  | _, _ => ['[', ']']

/-- What `_constrain_glob` raises, and the end of the fuel. -/
inductive GlobError where
  | indexError
  | outOfFuel
  deriving DecidableEq

/-- The characters of the paths at the position. -/
def charsAt (pos : ℕ) : List Text → Except GlobError (List Char)
  | [] => .ok []
  | path :: paths =>
    match path[pos]? with
    | none => .error .indexError
    | some c => (charsAt pos paths).map (c :: ·)

def charSets (pos : ℕ) : List (Text × List Text) → Except GlobError (List (Text × List Char))
  | [] => .ok []
  | (glob, paths) :: rest =>
    match charsAt pos paths with
    | .error error => .error error
    | .ok chars => (charSets pos rest).map ((glob, sortedSet chars) :: ·)

/-- The body of the loop over `char_sets`. -/
def specialise (pos : ℕ) (current : Dict Text (List Text)) (entry : Text × List Char) :
    Dict Text (List Text) :=
  (entry.2.foldl
    (fun now c => now.set (replaceFirst wildcard [c] entry.1)
      ((now.getD entry.1 []).filter fun path => path[pos]? = some c)) current).erase entry.1

/-- The loop of `_constrain_glob`. -/
def constrainFrom (limit : ℕ) : ℕ → Dict Text (List Text) → Except GlobError (List Text)
  | 0, _ => .error .outOfFuel
  | fuel + 1, current =>
    match current.keys with
    | [] => .error .indexError
    | first :: _ =>
      match find wildcard first with
      | none => .ok current.keys
      | some pos =>
        match charSets pos current.entries with
        | .error error => .error error
        | .ok sets =>
          if limit < (sets.map fun entry => entry.2.length).sum then
            .ok (sets.map fun entry =>
              replaceFirst wildcard (digitSetWildcard entry.2) entry.1)
          else constrainFrom limit fuel (sets.foldl (specialise pos) current)

/-- `_constrain_glob`, with so many rounds. -/
def constrainGlob (fuel : ℕ) (glob : Text) (paths : List Text) (limit : ℕ) :
    Except GlobError (List Text) :=
  constrainFrom limit fuel ((∅ : Dict Text (List Text)).set glob paths)

example : constrainGlob 5 "/[0-9][0-9]/x[0-9]".toList
    ["/13/x1".toList, "/14/x2".toList, "/20/x3".toList, "/20/x4".toList] 3 =
      .ok ["/13/x[1]".toList, "/14/x[2]".toList, "/20/x[3-4]".toList] := by decide

end Trun.Tools
