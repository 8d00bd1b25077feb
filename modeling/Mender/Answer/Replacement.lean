import Mender.Datum.Basic
import Mender.Noted
import Mender.Pattern.Search

/-! Replacements that a model asks for: one piece of text for another. A piece that does not occur
is looked for without its comment, and at last with its blanks made alike. -/
namespace Mender
open Text

structure Replacement where
  old : String
  new : String
  deriving Repr, DecidableEq

namespace Replacement

def rowNumber : Pattern := .read "^\\d+:\\s*"

def anyNumber : Pattern := .read "\\d+:\\s*"

def comment : Pattern := .read "\\s*//.*$"

def unnumbered (r : Replacement) : Replacement :=
  ⟨rowNumber.replaceAll "" r.old, anyNumber.replaceAll "" r.new⟩

def bare (s : String) : String := trim (comment.beforeFirst (trim s))

def spaced (s : String) : String := join " " (words s)

def withMark (mark line : String) : String :=
  match find? line "//" with
  | some pos =>
    if 0 < pos then trimEnd (take pos line) ++ mark ++ "  " ++ drop pos line else line ++ mark
  | none => line ++ mark

/-- The mark that the new text has and the old one lacks, where it can be added to a line. -/
def missingMark? (r : Replacement) (line : String) : Option String :=
  if contains r.new ";" && !contains r.old ";" then
    if endsWith (trimEnd line) ";" then none else some ";"
  else if contains r.new ")" && !contains r.old ")" then some ")"
  else none

/-- The first line that holds the wanted words and lacks a mark: its index, the mark, and the line
with it. -/
def fuzzy? (r : Replacement) (wanted : String) : List String → Option (Nat × String × String)
  | [] => none
  | line :: rest =>
    let here :=
      if wanted ≠ "" && contains (spaced (comment.beforeFirst line)) wanted then
        (r.missingMark? line).map fun mark => (0, mark, withMark mark (trimEnd line))
      else none
    match here with
    | some found => some found
    | none => (fuzzy? r wanted rest).map fun (i, mark, new) => (i + 1, mark, new)

/-- Adds a missing mark to the first line that holds the old text up to blanks. -/
def applyFuzzy (r : Replacement) (plain code : String) : Edit :=
  let wanted := spaced (if plain = "" then r.old else plain)
  match r.fuzzy? wanted (lines code) with
  | some (i, mark, new) =>
    .ofLines ((lines code).set i new) [s!"  [FUZZY APPLIED] line {i + 1}: added '{mark}'"]
  | none => .decline code s!"  [NOT FOUND] '{take 50 r.old}' not in code"

/-- Replaces the first line that equals the old text up to comments and blanks around it. -/
def applyBare (r : Replacement) (plain code : String) : Edit :=
  let ls := lines code
  match ls.findIdx? fun line => bare line = plain with
  | none => .keep code
  | some i =>
    let width := indentWidth (ls.getD i "")
    .ofLines (ls.set i (indented width (bare r.new)))
      [s!"  [APPLIED NO-COMMENT] line {i + 1}: {take 30 plain}..."]

def applyPlain (r : Replacement) (code : String) : Edit :=
  if r.old = "" then .keep code
  else if contains code r.old then
    ⟨replaceFirst code r.old r.new, [s!"  [APPLIED] {take 40 r.old}..."]⟩
  else
    let plain := bare r.old
    if plain ≠ "" && contains code plain then r.applyBare plain code
    else r.applyFuzzy plain code

def apply (r : Replacement) (code : String) : Edit := r.unnumbered.applyPlain code

/-- The text under the first of two keys that is there; empty if neither is. One that holds half
of a pair can be neither shown nor written. -/
def field (d : Datum) (key other : String) : Except Fault String :=
  match (d.get? key <|> d.get? other).getD (.text "") with
  | .text s => .ok s
  | .torn _ => .error .unencodable
  | _ => .error .wrongType

def ofDatum (d : Datum) : Except Fault Replacement :=
  match d with
  | .dict _ => do
    let old ← field d "old" "search"
    let new ← field d "new" "replace"
    return ⟨old, new⟩
  | _ => .error .noOperation

def applyAll (code : String) : List Datum → Noted String
  | [] => pure code
  | d :: ds => do
    let r ← Noted.ofExcept (ofDatum d)
    let code ← Noted.edit (r.apply code)
    applyAll code ds

def applyDatum (code : String) (d : Datum) : Noted String :=
  match d.members? with
  | some ds => applyAll code ds
  | none => Noted.fail .wrongType

end Replacement

end Mender
