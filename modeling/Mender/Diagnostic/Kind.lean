import Mender.Pattern.Search
import Mender.Text.Basic

/-! Kinds of errors, and which of them a compiler does not show at once. -/
namespace Mender.Diagnostic
open Text

/-- The kind of an error, and whether it is hard to find. -/
structure Kind where
  name : String
  hard : Bool
  deriving Repr, DecidableEq

/-- The notations of errors that are hard to find, with the names of their kinds. -/
def hardForms : List (String × String) :=
  [("E711.*comparison to None", "none_comparison"),
   ("E712.*comparison to True", "none_comparison"),
   ("E101.*mixed.*indent", "mixed_indent"),
   ("F401.*imported but unused", "unused_import"),
   ("might not have been initialized", "uninitialized_var"),
   ("cannot find symbol.*class", "cross_file_dep"),
   ("undefined reference", "cross_file_dep"),
   ("Traceback", "runtime_error"),
   ("Exception in thread", "runtime_error"),
   ("segmentation fault", "runtime_error")]

def plainKind (message : String) : String :=
  if contains message "';' expected" || contains message "expected ';'" then "missing_semicolon"
  else if contains message "expected '\x7d'" || contains message "'\x7d' expected" then
    "missing_brace"
  else if contains message "expected ')'" || contains message "')' expected" then "missing_paren"
  else if contains message "SyntaxError" then "syntax_error"
  else if contains (lower message) "unclosed" then "unclosed_string"
  else "other"

def kind (message : String) : Kind :=
  match hardForms.find? fun (form, _) =>
      (Pattern.read form { caseless := true }).occurs message with
  | some (_, name) => ⟨name, true⟩
  | none => ⟨plainKind message, false⟩

def hardReason (kind : String) : String :=
  match kind with
  | "cross_file_dep" => "跨文件依赖错误，单文件检查无法发现"
  | "runtime_error" => "运行时错误，静态检查无法发现"
  | "none_comparison" => "PEP8规范错误，编译器不报错"
  | "mixed_indent" => "混合缩进，肉眼难以分辨"
  | "unused_import" => "未使用导入，不影响运行但影响代码质量"
  | "type_mismatch" => "类型不匹配，动态语言运行时才暴露"
  | "uninitialized_var" => "未初始化变量，特定路径才触发"
  | _ => "其他难以发现的错误"

end Mender.Diagnostic
