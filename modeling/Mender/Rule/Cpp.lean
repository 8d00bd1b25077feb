import Mender.Rule.Basic
import Mender.Repair.Bracket
import Mender.Repair.Directive
import Mender.Repair.Expression
import Mender.Repair.Generic
import Mender.Repair.Literal
import Mender.Repair.Qualifier
import Mender.Repair.Semicolon

/-! Rules for C++ programs. A diagnostic is given to the rules in order. -/
namespace Mender.Rule
open Repair

def cppRules : List Rule :=
  [.fix "expected ';' before '\x7d'" (.atLine semicolonBeforeBrace),
   .fix "expected ';'" (.atLine addSemicolon),
   .fix "expected ';' at end of" (.atLine addSemicolon),
   .fix "multiple types in one declaration" (.atLineOrFail closeTypeBody),
   .fix "',' or ';' before" (.beforeLine addSemicolon),
   .fix "expected '\\)' before '\\\x7b'" (.atLine parenBeforeBrace),
   .fix "expected '\\)' before '\\['" (.atLine parenBeforeBracket),
   .fix "expected '\\)'" (.atLine (missingParen · · ")")),
   .fix "expected '\\('" (.atLine (missingParen · · "(")),
   .fix "expected '\x7d'" (.atLine missingBrace),
   .fix "expected '\\\x7b'" (.atLine missingOpenBrace),
   .fix "expected '\\\x7d' before 'else'" (.atLine braceBeforeElse),
   .fix "expected '\\\x7d' at end of input" (.onText closeBraces),
   .fix "expected '\\]'" (.atLine (missingBracket · · "]")),
   .fix "expected unqualified-id before '\\)'" (.atLine strayParen),
   .fix "expected unqualified-id before '\\('" (.atLine strayParen),
   .fix "expected unqualified-id before '\\\x7b'" (.atLine strayBrace),
   .fix "expected declaration before '\\\x7d'" (.atLine strayBrace),
   .fix "expected primary-expression before '\\\x7d'" (.atLineOrFail emptyStatement),
   .fix "expected primary-expression before '\\)'" (.atLine emptyExpression),
   .fix "expected primary-expression before ';'" (.atLine emptyExpression),
   .fix "unterminated" (.atLine closeString),
   .fix "missing terminating" (.atLine closeString),
   .fix "empty character constant" (.atLine fillCharLiteral),
   .fix "found ':' in nested-name-specifier, expected '::'" (.atLine singleColon),
   .fix "extra qualification" (.byMessageOrFail extraQualifier),
   .fix "qualified-id in declaration before" (.atLine addSemicolonBefore),
   .fix "'else' without a previous 'if'" (.atLineOrFail elseWithoutIf),
   .fix "expected identifier before numeric constant" (.atLine nameBeforeNumber),
   .fix "expected ',' or '\\.\\.\\.'" (.atLine missingComma),
   .fix "expected '=' before" (.atLine addSemicolonBefore),
   .fix "expected initializer before" (.atLine addSemicolonBefore),
   .fix "stray '\\\\\\\\' in program" (.atLine strayBackslash),
   .fix "stray '#' in program" (.atLine strayHash),
   .fix "extraneous closing brace" (.atLine strayBrace),
   .fix "invalid preprocessing directive" (.atLine invalidDirective),
   .fix "unterminated #" (.atLine unfinishedDirective),
   .fix "was not declared in this scope" (.byMessageOrFail undeclaredSymbol),
   .fix "has not been declared" (.byMessage declareClass),
   .fix "has no member named" (.byMessageOrFail noMember),
   .fix "does not name a type" (.byMessageOrFail unknownType),
   .model "conflicting types",
   .model "redefinition of",
   .model "unknown type name",
   .model "no matching function",
   .model "cannot convert",
   .model "invalid operands",
   .fix "need 'typename' before" (.byMessageOrFail addTypename),
   .fix "expected 'template' keyword" (.atLine addTemplate),
   .fix "dependent-name .* parsed as a non-type" (.byMessageOrFail addTypename),
   .fix "'typename' cannot be used outside of a template" (.atLine dropTypename),
   .fix "expected qualified name after 'typename'" (.atLine friendClass),
   .model "template argument.*involves template parameter"]

end Mender.Rule
