import Mender.Language
import Mender.Review.Imports
import Mender.Text.Quoted

/-! Objections to an edit: a text changes too much in size, brings too many new names, loses the
balance of its brackets, loses definitions, or has the names of its imports cut. -/
namespace Mender.Review
open Text

inductive BracketKind where
  | paren
  | bracket
  | brace
  deriving Repr, DecidableEq

namespace BracketKind

def name : BracketKind → String
  | .paren => "paren"
  | .bracket => "bracket"
  | .brace => "brace"

def counts (k : BracketKind) (code : String) : Nat × Nat :=
  match k with
  | .paren => (count code "(", count code ")")
  | .bracket => (count code "[", count code "]")
  | .brace => (count code "\x7b", count code "\x7d")

def all : List BracketKind := [.paren, .bracket, .brace]

end BracketKind

inductive Objection where
  | size (before after : Nat)
  | names (first : List String)
  | unbalanced (kind : BracketKind) (opening closing : Nat)
  | lost (form : String)
  | cutImport (c : CutImport)
  deriving Repr, DecidableEq

def CutImport.message (c : CutImport) : String := s!"import 路径被截断: {c.full} -> {c.cut}"

def Objection.message : Objection → String
  | .size before after => s!"代码长度变化过大: {before} -> {after} 行"
  | .names first => s!"修复引入了过多新标识符: {quotedList first}..."
  | .unbalanced kind opening closing => s!"修复导致 {kind.name} 不平衡: ({opening}, {closing})"
  | .lost form => s!"修复删除了关键代码: {form}"
  | .cutImport c => c.message

def name : Pattern := .read "\\b[a-zA-Z_][a-zA-Z0-9_]*\\b"

def names (code : String) : List String := sorted ((name.findAll code).map (·.text))

def keywords : List String :=
  ["if", "else", "for", "while", "return", "class", "def", "try", "except", "finally", "import",
   "from", "as", "in", "not", "and", "or", "True", "False", "None", "public", "private", "static",
   "void", "int", "string", "float", "double", "bool", "boolean", "char", "const", "auto",
   "include", "using", "namespace", "std", "new", "delete", "virtual", "override"]

def newNames (source fixed : String) : List String :=
  let known := names source
  (names fixed).filter fun n => !known.contains n && !keywords.contains n

/-- What must not become rarer in a text of a language, as the notations of patterns. -/
def criticalForms : Language → List String
  | .python => ["def\\s+\\w+", "class\\s+\\w+", "import\\s+\\w+"]
  | .java => ["public\\s+class", "public\\s+static\\s+void\\s+main"]
  | .c => ["int\\s+main", "#include"]
  | .cpp => ["int\\s+main", "#include", "class\\s+\\w+"]

def occurrences (form code : String) : Nat := ((Pattern.read form).findAll code).length

def sizeObjection? (source fixed : String) : Option Objection :=
  let before := (lines source).length
  let after := (lines fixed).length
  if before < 2 * (after - before + (before - after)) then some (.size before after) else none

def namesObjection? (source fixed : String) : Option Objection :=
  let added := newNames source fixed
  if 5 < added.length then some (.names (added.take 5)) else none

def balanceObjection? (source fixed : String) : Option Objection :=
  BracketKind.all.findSome? fun k =>
    let (opening, closing) := k.counts fixed
    let (before, after) := k.counts source
    if opening ≠ closing && before = after then some (.unbalanced k opening closing) else none

def lossObjection? (lang : Option Language) (source fixed : String) : Option Objection :=
  ((lang.map criticalForms).getD []).findSome? fun form =>
    if occurrences form fixed < occurrences form source then some (.lost form) else none

def importCut? (lang : Option Language) (source fixed : String) (order : Arrangement := .byName) :
    Option CutImport :=
  match lang with
  | some .python => scriptCut? source fixed order
  | some .java => classCut? source fixed order
  | _ => none

def objection? (lang : Option Language) (source fixed : String) (order : Arrangement := .byName) :
    Option Objection :=
  if fixed = "" || fixed = source then none
  else
    sizeObjection? source fixed <|> namesObjection? source fixed <|>
      balanceObjection? source fixed <|> lossObjection? lang source fixed <|>
      (importCut? lang source fixed order).map .cutImport

end Mender.Review
