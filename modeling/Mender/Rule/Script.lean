import Mender.Rule.Basic
import Mender.Repair.Bracket
import Mender.Repair.Import
import Mender.Repair.Indentation
import Mender.Repair.Literal
import Mender.Repair.Script
import Mender.Repair.Semicolon

/-! Rules for Python scripts. A diagnostic is given to the rules in order. -/
namespace Mender.Rule
open Repair

def scriptRules : List Rule :=
  [.fix "F401.*'(\\w+)' imported but unused"
     (.byFound fun code m => dropLines code s!"import {m.group 1}"),
   .fix "F811.*redefinition of unused" .ignore,
   .model "F821.*undefined name",
   .fix "F841.*local variable.*never used" .ignore,
   .fix "ModuleNotFoundError: No module named '([\\w.]+)'"
     (.byModules fun index code m => moduleNotFound index code (m.group 1)),
   .fix "ImportError: cannot import name '(\\w+)' from '([\\w.]+)'"
     (.byModules fun index code m => symbolNotImported index code (m.group 1) (m.group 2)),
   .fix "ImportError: attempted relative import with no known parent package"
     (.onText relativeImport),
   .fix "ImportError: attempted relative import beyond top-level package" (.onText relativeImport),
   .fix "No module named '([\\w_]+)'"
     (.byModules fun index code m => moduleNotFound index code (m.group 1)),
   .fix "W293.*whitespace" .ignore,
   .fix "W291.*trailing whitespace" .ignore,
   .fix "W292.*no newline" .ignore,
   .fix "W391.*blank line at end" .ignore,
   .fix "SyntaxError: expected ':'" (.atLine missingColon),
   .fix "expected ':'" (.atLine missingColon),
   .fix "SyntaxError: invalid syntax.*\\n.*\\^\\s*$" (.atLine missingColon),
   .fix "expected '\\('" (.atLine (missingParen · · "(")),
   .fix "SyntaxError.*was never closed" (.byMessageOrFail closeNamedBracket),
   .fix "'\\(' was never closed" (.byMessageOrFail closeNamedBracket),
   .fix "'\\[' was never closed" (.byMessageOrFail closeNamedBracket),
   .fix "'\\\x7b' was never closed" (.byMessageOrFail closeNamedBracket),
   .fix "unmatched '\\)'" (.atLine (extraBracket · · ")")),
   .fix "unmatched '\\]'" (.atLine (extraBracket · · "]")),
   .fix "unmatched '\\\x7d'" (.atLine (extraBracket · · "\x7d")),
   .fix "IndentationError" (.atLine adjustIndent),
   .fix "unexpected indent" (.atLine dropIndent),
   .fix "expected an indented block" (.atLine addIndent),
   .fix "unindent does not match" (.atLine matchIndent),
   .fix "E999.*SyntaxError" (.byMessageOrFail syntaxError),
   .fix "EOL while scanning string literal" (.atLine closeScriptString),
   .fix "unterminated string literal" (.atLine closeScriptString),
   .fix "invalid syntax.*Perhaps you forgot a comma" (.atLine missingListComma),
   .fix "'return' outside function" (.atLine misplacedReturn),
   .fix "'break' outside loop" (.atLine misplacedBreak),
   .fix "'continue' not properly in loop" (.atLine misplacedContinue),
   .fix "cannot assign to" (.atLine assignmentInCondition),
   .fix "invalid syntax.*==" (.atLine doubleEquals),
   .fix "non-default argument follows default argument" (.atLine fun code _ => argumentOrder code),
   .fix "duplicate argument" .ignore,
   .fix "E501.*line too long" .ignore,
   .fix "E711.*comparison to None" (.atLine noneComparison),
   .fix "E712.*comparison to True" (.atLine boolComparison),
   .fix "E713.*not in test" (.atLine notIn),
   .fix "E721.*type comparison" .ignore,
   .fix "E101.*indentation contains mixed" (.onText tabsToSpaces),
   .fix "E111.*indentation is not a multiple" .ignore,
   .fix "E117.*over-indented" .ignore,
   .fix "E701.*multiple statements on one line.*colon" .ignore,
   .fix "E702.*multiple statements on one line.*semicolon" .ignore,
   .fix "E703.*statement ends with semicolon" (.atLine dropSemicolon)]

end Mender.Rule
