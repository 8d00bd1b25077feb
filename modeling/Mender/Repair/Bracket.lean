import Mender.Source.Edit
import Mender.Diagnostic.Location

/-! Missing, stray and surplus brackets. -/
namespace Mender.Repair
open Text

def braceSemicolon : Pattern := .read "\\\x7b\\s*;"

def cleanBrace (line : String) : String := braceSemicolon.replaceAll "\x7b" line

def closeBeforeBrace (line : String) : Option String :=
  match findLast? line "\x7b" with
  | some (pos + 1) =>
    let before := trimEnd (take (pos + 1) line)
    let opened := excess before "(" ")"
    if 0 < opened then
      some (before ++ replicate opened.toNat ')' ++ " " ++ drop (pos + 1) line)
    else none
  | _ => none

/-- A line with its missing parenthesis. A closing one goes before the last opening brace if
parentheses are open there; otherwise the parenthesis goes to the end. -/
def withParen (paren line : String) : Option String :=
  let body := trimEnd line
  let atEnd :=
    if endsWith body paren || endsWith body ";" then none else some (body ++ paren)
  if paren = ")" && contains body "\x7b" then
    let cleaned := cleanBrace body
    match closeBeforeBrace cleaned with
    | some new => some new
    | none => if cleaned = body then atEnd else some cleaned
  else atEnd

def missingParen (code : String) (n : Option Int) (paren : String) : Edit :=
  changeLine code n (fun _ => []) (withParen paren)

def missingBrace (code : String) (n : Option Int) : Edit :=
  match Diagnostic.given n with
  | none => .keep code
  | some _ =>
    let ls := lines code
    if ls.getLast?.any fun l => trim l = "\x7d" then .keep code else .ofLines (ls ++ ["\x7d"])

def missingOpenBrace (code : String) (n : Option Int) : Edit :=
  repairLine code n "在行末添加 \x7b" fun line =>
    let body := trimEnd line
    if endsWith body "\x7b" || endsWith body ";" then none else some (body ++ " \x7b")

def missingBracket (code : String) (n : Option Int) (bracket : String) : Edit :=
  repairLine code n s!"在行末添加 '{bracket}'" fun line =>
    let body := trimEnd line
    if endsWith body bracket then none else some (body ++ bracket)

def closeBraces (code : String) : Edit :=
  let opened := excess code "\x7b" "\x7d"
  if 0 < opened then
    .ofLines (lines code ++ List.replicate opened.toNat "\x7d")
      [repairNote s!"在文件末尾添加 {opened} 个 \x7d"]
  else .keep code

def elseWord : Pattern := .read "(\\s*)else"

def braceBeforeElse (code : String) (n : Option Int) : Edit :=
  repairLine code n "在 else 前添加 \x7d" fun line =>
    changed line (elseWord.replaceBy (fun m => m.group 1 ++ "\x7d else") line)

def squareOpen : Pattern := .read "(\\s*)\\["

/-- Closes a parenthesis before the first square bracket of line `n`, if one is open on the line. -/
def parenBeforeBracket (code : String) (n : Option Int) : Edit :=
  repairLine code n "在 [ 前添加 )" fun line =>
    if 0 < excess line "(" ")" && contains line "[" then
      changed line (squareOpen.replaceOnce (fun m => ")" ++ m.group 1 ++ "[") line)
    else none

def openAtBrace : Pattern := .read "\\(([^)]+)\\s*\\\x7b"

def parenBeforeBrace (code : String) (n : Option Int) : Edit :=
  repairLine code n "在 \x7b 前添加 )" fun line =>
    let cleaned := cleanBrace line
    changed cleaned (openAtBrace.replaceBy (fun m => "(" ++ m.group 1 ++ ") \x7b") cleaned)

def closingCall : Pattern := .read "\\)\\s*[\x7b;]"

/-- Removes a closing bracket that stands alone on line `n`, or a parenthesis that begins it. -/
def strayParen (code : String) (n : Option Int) : Edit :=
  let ls := lines code
  match lineAt? ls n with
  | none => .keep code
  | some (i, line) =>
    let body := trim line
    if body = ")" || body = "\x7d" then
      .ofLines (ls.eraseIdx i) [repairNoteAt s!"删除孤立的 '{body}'" (i + 1)]
    else if startsWith body ")" && (closingCall.matchStart body).isNone then
      .ofLines (ls.set i (drop 1 (trimStart line))) [repairNoteAt "删除行首孤立的 ')'" (i + 1)]
    else .keep code

def strayBrace (code : String) (n : Option Int) : Edit :=
  let ls := lines code
  match lineAt? ls n with
  | none => .keep code
  | some (i, line) =>
    if trim line = "\x7d" then
      .ofLines (ls.eraseIdx i) [repairNoteAt "删除孤立的 '\x7d'" (i + 1)]
    else .keep code

def elseWithoutIf (code : String) (n : Option Int) : Except Fault Edit :=
  match Diagnostic.given n with
  | none => .ok (.keep code)
  | some n =>
    if 1 < n then do
      let ls := lines code
      let previous := trimEnd (← lineWithIndex ls (n - 2))
      if endsWith previous "\x7d" then return .keep code
      return .ofLines (ls.set (n - 2).toNat (previous ++ " \x7d"))
        [repairNoteAt "在 else 前添加 \x7d" (n - 1)]
    else .ok (.keep code)

def bracketPairs : List (Char × Char) := [('(', ')'), ('[', ']'), ('\x7b', '\x7d')]

def closeNamedBracket (code message : String) : Except Fault Edit := do
  let n ← Diagnostic.lineNumber message
  let ls := lines code
  match lineAt? ls n with
  | none => return .keep code
  | some (i, line) =>
    let candidates := bracketPairs.filterMap fun (o, c) =>
      let opened := excess line (String.singleton o) (String.singleton c)
      if contains message s!"'{o}' was never closed" && 0 < opened then some (c, opened.toNat)
      else none
    match candidates with
    | [] => return .keep code
    | (c, opened) :: _ =>
      return .ofLines (ls.set i (trimEnd line ++ replicate opened c))
        [repairNoteAt s!"添加缺少的 '{c}'" (i + 1)]

def extraBracket (code : String) (n : Option Int) (bracket : String) : Edit :=
  repairLine code n s!"移除多余的 '{bracket}'" fun line =>
    (findLast? line bracket).map fun i => take i line ++ drop (i + 1) line

end Mender.Repair
