import Mender.Text.Basic
import Mender.Text.Word
import Mender.Pattern.Search

/-! Replacement templates given as text: a backslash introduces a group reference or an escape. -/
namespace Mender.Pattern

inductive TemplateError where
  | badEscape
  | unknownName (name : String)

inductive TemplatePart where
  | char (c : Char)
  | group (i : Nat)

def isName : List Char → Bool
  | [] => false
  | c :: cs => (Text.isLetter c || c == '_') && cs.all Text.isWord

def isOctal (c : Char) : Bool := '0' ≤ c && c ≤ '7'

def octalValue (cs : List Char) : Nat := cs.foldl (fun n c => 8 * n + (c.toNat - 48)) 0

def controlEscape (c : Char) : Option Char :=
  match c with
  | 'a' => some '\x07'
  | 'b' => some '\x08'
  | 'f' => some '\x0c'
  | 'n' => some '\n'
  | 'r' => some '\r'
  | 't' => some '\t'
  | 'v' => some '\x0b'
  | '\\' => some '\\'
  | _ => none

def namedGroup (groups : Nat) (name : List Char) : Except TemplateError Nat :=
  if isName name then .error (.unknownName (String.ofList name))
  else if !name.isEmpty && name.all Text.isDecimal then
    if Text.digitsValue name ≤ groups then .ok (Text.digitsValue name) else .error .badEscape
  else .error .badEscape

/-- The parts of a template for a pattern with the given number of groups. `fuel` bounds the number
of steps. -/
def templateFrom (groups : Nat) : Nat → List Char → Except TemplateError (List TemplatePart)
  | 0, _ => .ok []
  | _, [] => .ok []
  | fuel + 1, '\\' :: rest =>
    let part (p : TemplatePart) (after : List Char) :=
      (templateFrom groups fuel after).map (p :: ·)
    let reference (i : Nat) (after : List Char) :=
      if i ≤ groups then part (.group i) after else .error .badEscape
    match rest with
    | [] => .error .badEscape
    | 'g' :: '<' :: after =>
      if after.contains '>' then
        match namedGroup groups (after.takeWhile (· != '>')) with
        | .error e => .error e
        | .ok i => part (.group i) ((after.dropWhile (· != '>')).drop 1)
      else .error .badEscape
    | 'g' :: _ => .error .badEscape
    | '0' :: after =>
      let more := (after.take 2).takeWhile isOctal
      part (.char (Char.ofNat (octalValue more % 256))) (after.drop more.length)
    | c :: after =>
      if c.isDigit then
        match after with
        | d :: after' =>
          if d.isDigit then
            match after' with
            | e :: after'' =>
              if isOctal c && isOctal d && isOctal e then
                if octalValue [c, d, e] ≤ 255 then
                  part (.char (Char.ofNat (octalValue [c, d, e]))) after''
                else .error .badEscape
              else reference (Text.digitsValue [c, d]) after'
            | [] => reference (Text.digitsValue [c, d]) after'
          else reference (Text.digitsValue [c]) after
        | [] => reference (Text.digitsValue [c]) after
      else
        match controlEscape c with
        | some x => part (.char x) after
        | none =>
          if c.isAlpha then .error .badEscape
          else (part (.char c) after).map (.char '\\' :: ·)
  | fuel + 1, c :: rest => (templateFrom groups fuel rest).map (.char c :: ·)

def readTemplate (groups : Nat) (s : String) : Except TemplateError (List TemplatePart) :=
  templateFrom groups (s.toList.length + 1) s.toList

def expand (parts : List TemplatePart) (m : Found) : String :=
  String.join (parts.map fun
    | .char c => String.singleton c
    | .group 0 => m.text
    | .group i => m.group i)

end Mender.Pattern
