import Mender.Language
import Mender.Source.Edit

/-! The prompts that ask a model for repairs. -/
namespace Mender.Prompt
open Text

def upper (s : String) : String := String.ofList (s.toList.map Char.toUpper)

def hints (lang : String) : String :=
  match Language.ofName? lang with
  | some .python =>
    "\n- Python 语法：if/for/while/def/class 后需要冒号" ++
    "\n- 括号必须配对：( ) [ ] \x7b\x7b \x7d\x7d" ++
    "\n- 缩进使用 4 个空格"
  | some .java =>
    "\n- Java 语法：语句末尾需要分号 ;" ++
    "\n- 括号必须配对：( ) [ ] \x7b\x7b \x7d\x7d" ++
    "\n- 代码块使用 \x7b\x7b \x7d\x7d"
  | some .c =>
    "\n- C 语法：语句末尾需要分号 ;" ++
    "\n- 括号必须配对：( ) [ ] \x7b\x7b \x7d\x7d" ++
    "\n- 字符串用双引号 "
  | some .cpp =>
    "\n- C++ 语法：语句末尾需要分号 ;" ++
    "\n- 括号必须配对：( ) [ ] \x7b\x7b \x7d\x7d < >" ++
    "\n- 作用域使用 ::"
  | none => ""

/-- The text of the faulty line: what follows the line number in the first row of the context that
begins with it. -/
def faultyLine? (context : Option String) (n : Option Int) : Option String :=
  match n with
  | none => none
  | some 0 => none
  | some n =>
    let mark := s!"{n}:"
    let row := (lines (context.getD "")).find? fun row => startsWith row mark
    match row with
    | some row =>
      let text := trim (drop (length mark) row)
      if text = "" then none else some text
    | none => none

def shown (s : Option String) : String := s.getD "None"

def single (message : String) (context : Option String) (n : Option Int) (lang : String) : String :=
  let number := shown (n.map toString)
  let faulty := (faultyLine? context n).getD "未知"
  unlines
    [s!"## {upper lang} 语法修复任务",
     "",
     "### 错误信息",
     "```",
     take 400 message,
     "```",
     "",
     "### 出错位置",
     s!"- 行号: 第 {number} 行",
     s!"- 出错代码: `{faulty}`",
     "",
     "### 上下文代码",
     s!"```{lang}",
     shown context,
     "```",
     "",
     "### 语法规则提示" ++ hints lang,
     "",
     "### 修复要求（严格遵守）",
     "1. **只修语法错误**：缺分号/冒号/括号不匹配/引号未关闭",
     "2. **禁止改语义**：不改变量名/函数名/算法逻辑/注释",
     "3. **最小修改**：只修出错位置，不重构代码",
     "4. **【关键】import 路径保护**：严禁截断模块名，如 `step1_parsing` 不能变成 `step1`",
     "",
     "### 返回格式",
     "返回 **一个 JSON 对象**，包含最小修改片段：",
     "```json",
     "\x7b\"old\": \"原始错误片段\", \"new\": \"修复后片段\"\x7d",
     "```",
     "",
     "示例：",
     "- 缺分号: \x7b\"old\": \"x = 1\", \"new\": \"x = 1;\"\x7d",
     "- 缺冒号: \x7b\"old\": \"if x > 0\", \"new\": \"if x > 0:\"\x7d",
     "- 缺右括号: \x7b\"old\": \"print(x\", \"new\": \"print(x)\"\x7d"]

def batch (errors : List String) (lang : String) : String :=
  unlines
    ([s!"{upper lang} 批量语法修复。",
      "",
      "## 严格约束",
      "1. 只修语法错误，禁止改语义/逻辑/变量名",
      "2. 最小化修改，未报错代码保持原样",
      "3. 【关键】严禁截断 import 路径，如 step1_parsing 不能变 step1",
      "",
      "错误列表:"] ++
     (errors.take 5).map (fun e => "- " ++ take 100 e) ++
     ["",
      "返回JSON数组(每个修复只包含最小片段):",
      "[\x7b\"old\": \"原片段\", \"new\": \"修复\"\x7d]"])

end Mender.Prompt
