import Mender.Review.Accept

/-! Edits in any number, good ones and bad ones, and what is said about them. -/
namespace Mender.Bench
open Text

def reviewTexts : List (Language × String) :=
  [(.python, unlines ["import os", "import json", "from step1_parsing import parse",
      "from code.util import helper", "", "VALUE = 1", "def run(value):", "    total = value",
      "    value = VALUE", "    return total", ""]),
   (.java, unlines ["package demo;", "import com.example.foo.Bar;", "import java.util.List;",
      "public class Demo \x7b", "    int run() \x7b", "        return 1;", "    \x7d", "\x7d"]),
   (.cpp, unlines ["#include <vector>", "int main() \x7b", "    int a = 1;", "    int b = a;",
      "    return b;", "\x7d", ""]),
   (.c, unlines ["#include <stdio.h>", "int main() \x7b", "    int a = 1;", "    int b = a;",
      "    return b;", "\x7d", ""])]

def newNamesLine : String := join " " ((List.range 12).map fun i => s!"nid{i}")

def withoutImport : Language → String → String
  | .python, code => replace code "step1_parsing" "step1"
  | .java, code => replace code "com.example.foo.Bar" "com.example.foo"
  | _, code => unlines ((lines code).map fun l => if startsWith l "#include" then "" else l)

/-- The edits of a text in turn: none, a blank line, too many lines, open parentheses, a lost import
and too many new names. -/
def editOf (lang : Language) (code : String) : Nat → String
  | 0 => code
  | 1 => code ++ "\n"
  | 2 => code ++ join "" (List.replicate 60 "\n")
  | 3 => code ++ "(((("
  | 4 => withoutImport lang code
  | _ => code ++ newNamesLine

structure Verdict where
  objection : Option String
  taken : Bool
  importObjection : Option String
  deriving Repr, DecidableEq

def verdict (lang : Language) (code fixed : String) : Verdict :=
  { objection := (Review.objection? (some lang) code fixed).map (·.message)
    taken := (Review.accept (some lang) code fixed).applied
    importObjection := (Review.importCut? (some lang) code fixed).map (·.message) }

structure Reviews where
  verdicts : List Verdict
  imported : List String
  classCount : Nat
  fewer : Bool
  more : Bool
  errors : Nat

/-- Reviews a number of edits, which go round the languages and then the kinds of edits. -/
def reviews (n : Nat) : Reviews :=
  let textOf (i : Nat) := reviewTexts.getD i (.python, "")
  { verdicts := (List.range n).map fun i =>
      let (lang, code) := textOf (i % reviewTexts.length)
      verdict lang code (editOf lang code (i / reviewTexts.length % 6))
    imported := Review.scriptImports (textOf 0).2
    classCount := (Review.classImports (textOf 1).2).length
    fewer := Review.isImproving 5 3
    more := Review.isImproving 3 5
    errors := Review.errorCount (unlines (List.replicate (150 * n) "a.cpp:1: error: bad")) }

end Mender.Bench
