import Mender.Rule.Basic
import Mender.Repair.Bracket
import Mender.Repair.Java
import Mender.Repair.Literal
import Mender.Repair.Semicolon

/-! Rules for Java programs. A diagnostic is given to the rules in order. -/
namespace Mender.Rule
open Repair

def javaRules : List Rule :=
  [.fix "';' expected" (.atLine addSemicolon),
   .fix "illegal start of expression" (.beforeLine addSemicolon),
   .fix "illegal start of type" (.beforeLine addSemicolon),
   .fix "\\) expected" (.atLine (missingParen · · ")")),
   .fix "\\( expected" (.atLine (missingParen · · "(")),
   .fix "'\x7d' expected" (.atLine missingBrace),
   .fix "'\\\x7b' expected" (.atLine missingOpenBrace),
   .fix "reached end of file while parsing" (.onText closeBraces),
   .fix "'\\]' expected" (.atLine (missingBracket · · "]")),
   .fix "'\\[' expected" (.atLine (missingBracket · · "[")),
   .fix "unclosed string literal" (.atLine closeString),
   .fix "unclosed character literal" (.atLine closeString),
   .fix "empty character literal" (.atLine fillCharLiteral),
   .fix "should be declared in a file named" (.onText renameClass),
   .fix "class .* is public, should be declared" (.onText renameClass),
   .fix "'else' without 'if'" (.atLineOrFail elseWithoutIf),
   .fix "<identifier> expected" (.beforeLine addSemicolon),
   .fix "not a statement" (.beforeLine addSemicolon),
   .fix "missing method body" (.atLine emptyBody),
   .fix "return type required" (.atLine voidType),
   .fix "duplicate class" .ignore,
   .fix "variable .* is already defined" .ignore,
   .fix "variable .* might not have been initialized" (.byMessageOrFail initVariable),
   .fix "variable .* might already have been assigned" .ignore,
   .model "incompatible types",
   .model "cannot convert",
   .model "bad operand type",
   .model "inconvertible types",
   .fix "missing return statement" (.atLine returnNull),
   .model "method .* in class .* cannot be applied",
   .fix "unreachable statement" (.atLine unreachable),
   .fix "'break' outside switch or loop" (.atLine unreachable),
   .fix "'continue' outside of loop" (.atLine unreachable),
   .model "has private access",
   .model "is not public",
   .model "cannot be accessed from outside",
   .fix "non-static .* cannot be referenced from a static context" (.byMessageOrFail staticContext),
   .fix "non-static method .* cannot be referenced" (.byMessageOrFail staticContext),
   .model "is abstract; cannot be instantiated",
   .fix "abstract methods cannot have a body" (.atLine dropBody),
   .model "does not override or implement",
   .model "unreported exception",
   .fix "exception .* is never thrown" (.byMessageOrFail dropException),
   .fix "cannot find symbol" (.byMessageOrFail importSymbol),
   .fix "package .* does not exist" (.byMessageOrFail dropImport),
   .model "cannot access .*",
   .fix "array required, but .* found" (.atLine fun code _ => arrayAccess code),
   .model "cannot convert .* to .*\\[\\]",
   .model "constant expression required",
   .model "case label must be constant",
   .fix "constructor .* cannot be applied" (.onText constructorArguments),
   .model "no suitable constructor found",
   .fix "call to super must be first statement" (.atLineOrFail superFirst),
   .model "generic array creation",
   .model "cannot infer type arguments",
   .model "annotation .* is missing",
   .fix "@Override .* does not override" (.atLineOrFail dropOverride)]

end Mender.Rule
