import Mender.World.Basic

/-! The language model: how it is reached, and asking it. -/
namespace Mender

inductive Model where
  | direct
  | openai
  | anthropic
  deriving Repr, DecidableEq

namespace Model

def proxyVariables : List String := ["HTTP_PROXY", "HTTPS_PROXY", "http_proxy", "https_proxy"]

def openaiUrl : String := "https://dashscope.aliyuncs.com/compatible-mode/v1"

def clearProxies : Run Unit :=
  modify fun w => { w with env := w.env.filter fun (name, _) => !proxyVariables.contains name }

def setting? (name : String) : Run (Option String) := do
  return ((← get).env.lookup name).filter (· ≠ "")

def record (e : ClientEvent) : Run Unit := modify fun w => { w with clients := w.clients ++ [e] }

def load (library advice : String) : Run Unit := do
  if (← get).missingLibraries.contains library then throw (.failed advice)

def connect (provider : Option String) : Run Model := do
  clearProxies
  match provider with
  | some "qwen" | some "openai" | some "kimi" =>
    let key ← setting? "QWEN_API_KEY"
    load "openai" "请安装 openai: pip install openai"
    record (.openai openaiUrl key.isSome)
    return .openai
  | some "claude" =>
    if (← setting? "ANTHROPIC_API_KEY").isNone then
      throw (.failed "请设置环境变量 ANTHROPIC_API_KEY")
    load "anthropic" "请安装 anthropic: pip install anthropic"
    record (.anthropic true)
    return .anthropic
  | other =>
    let name := other.getD "None"
    throw (.badValue s!"不支持的 provider: {name}，可选: qwen, openai, kimi, claude")

def query? : Model → Option ClientEvent
  | .direct => none
  | .openai => some (.query "qwen-max" 4096 (some "0.7"))
  | .anthropic => some (.query "claude-sonnet-4-5-20250929" 4096 none)

def ask (m : Model) (prompt : String) : Run String := do
  m.query?.forM record
  let w ← get
  match w.replies with
  | [] =>
    set { w with prompts := w.prompts ++ [prompt] }
    throw (.failed "no more replies")
  | r :: rest =>
    set { w with prompts := w.prompts ++ [prompt], replies := rest }
    match r with
    | .text s => return s
    | .failure reason => throw (.failed reason)

end Model

end Mender
