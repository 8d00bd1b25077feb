import Mender.Text.Basic

/-! Source texts of any size with many kinds of mistakes, for measuring repairs. -/
namespace Mender.Bench
open Text

def repeated (forms : List (Nat → String)) (count : Nat) : List String :=
  (List.range count).map fun i => (forms.getD (i % forms.length) fun _ => "") i

def cHead : List String :=
  ["#include <vector>", "using namespace std;", "class Foo \x7b", "public:", "    Foo(int a",
   "        : m(a) \x7b\x7d", "\x7d;", "enum E \x7b A, B", "\x7d", ""]

def cForms : List (Nat → String) :=
  [fun i => s!"int var{i} = {i}",
   fun _ => "    if (x > 0 \x7b",
   fun _ => "        cout << endl",
   fun _ => "    else",
   fun _ => "    char c = '';",
   fun _ => "    printf(\"hi\")",
   fun _ => "    int arr[3",
   fun _ => "    return 0",
   fun _ => "\x7d",
   fun _ => "    obj->get<int>();",
   fun _ => "    vector<int> v;",
   fun _ => "    typename Foo x;",
   fun _ => "    friend typename Bar;",
   fun _ => "    )",
   fun _ => "    \x7d",
   fun _ => "    x = y \\",
   fun _ => "    x = # broken",
   fun _ => "#badDirective foo",
   fun _ => "    foo(, a,);; ",
   fun _ => "    string s = \"oops",
   fun _ => "    int 3abc = 1;",
   fun _ => "    Foo::Foo::bar();",
   fun _ => "    int z  // comment",
   fun i => s!"    auto q{i} = {i};"]

def cSample (n : Nat) : String := unlines (cHead ++ repeated cForms (max 1 (n - cHead.length)))

def scriptHead : List String :=
  ["import os", "import sys", "from .relpkg import thing", "from step1 import helper", "",
   "def outer()", "    x = (1, 2", "    y = [1, 2, 3]]", "    if x == None:", "        pass",
   "  bad_indent = 1", "\tmixed = 1", "    s = 'unterminated", "    z = 1;", "    if a = 5:",
   "        return 1", "break", "continue", "return 99"]

def scriptForms : List (Nat → String) :=
  [fun i => s!"def f{i}()",
   fun i => s!"    val = ({i}",
   fun _ => "    if val == True:",
   fun _ => "        print(val",
   fun _ => "    if not val in (1,2):",
   fun _ => "        pass"]

def scriptSample (n : Nat) : String :=
  unlines (scriptHead ++ repeated scriptForms (n - scriptHead.length))

def classHead : List String :=
  ["package demo;", "import bad.pkg.Missing;", "public class Wrong \x7b", "    @Override",
   "    public foo() throws IOException", "    int x",
   "    public static void main(String[] a) \x7b", "        int y;", "        List<Integer> l;",
   "        System.out.println(y)", "        x = 1;", "        super();", "        return;",
   "        int z = 0;", "    \x7d", "    abstract void q() \x7b \x7d", "\x7d"]

def classSample (n : Nat) : String :=
  unlines (classHead ++ repeated [fun i => s!"    int pad{i} = {i};"] (n - classHead.length))

end Mender.Bench
