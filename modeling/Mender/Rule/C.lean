import Mender.Rule.Basic
import Mender.Repair.Bracket
import Mender.Repair.Directive
import Mender.Repair.Expression
import Mender.Repair.Header
import Mender.Repair.Literal
import Mender.Repair.Semicolon

/-! Rules for C programs. A diagnostic is given to the rules in order. -/
namespace Mender.Rule
open Repair

def cRules : List Rule :=
  [.fix "expected ';'" (.atLine addSemicolon),
   .fix "expected ';' before" (.beforeLine addSemicolon),
   .fix "expected ';' at end of" (.atLine addSemicolon),
   .fix "multiple types in one declaration" (.atLineOrFail closeTypeBody),
   .fix "expected '\\)'" (.atLine (missingParen · · ")")),
   .fix "expected '\\('" (.atLine (missingParen · · "(")),
   .fix "expected '\x7d'" (.atLine missingBrace),
   .fix "expected '\\\x7b'" (.atLine missingOpenBrace),
   .fix "expected '\\\x7d' before 'else'" (.atLine braceBeforeElse),
   .fix "expected '\\\x7d' at end of input" (.onText closeBraces),
   .fix "expected '\\]'" (.atLine (missingBracket · · "]")),
   .fix "unterminated" (.atLine closeString),
   .fix "missing terminating" (.atLine closeString),
   .fix "empty character constant" (.atLine fillCharLiteral),
   .fix "'else' without a previous 'if'" (.atLineOrFail elseWithoutIf),
   .fix "expected identifier" (.beforeLine addSemicolon),
   .fix "expected ',' or '\\.\\.\\.'" (.atLine missingComma),
   .fix "expected '=' before" (.atLine addSemicolonBefore),
   .fix "expected declaration before '\\\x7d'" (.atLine strayBrace),
   .fix "stray '\\\\\\\\' in program" (.atLine strayBackslash),
   .fix "stray '#' in program" (.atLine strayHash),
   .fix "implicit declaration" (.byMessage includeForFunction),
   .fix "undeclared" (.byMessage includeForFunction),
   .fix "unknown type name" (.byMessage includeForType),
   .model "conflicting types",
   .model "redefinition of",
   .fix "assignment makes pointer from integer" (.atLine fun code _ => pointerCast code),
   .fix "assignment makes integer from pointer" (.atLine fun code _ => pointerCast code),
   .model "incompatible pointer type",
   .model "dereferencing pointer to incomplete type",
   .fix "too few arguments to function" (.onText (callArguments · "few")),
   .fix "too many arguments to function" (.onText (callArguments · "many")),
   .fix "control reaches end of non-void function" (.atLine returnZero),
   .fix "unused variable" (.byMessageOrFail useVariable),
   .fix "unused parameter" .ignore,
   .fix "comparison between signed and unsigned" .ignore]

end Mender.Rule
