import Mender.Answer.Payload
import Mender.Model.Client
import Mender.Model.Prompt

/-! Asking the model for repairs. -/
namespace Mender.Model

inductive Reading where
  | data (d : Datum)
  | empty
  | failure (e : Fault)

def request (m : Model) (prompt : String) : Run Reading := do
  match ← Run.caught (m.ask prompt) with
  | .error e => return .failure e
  | .ok reply =>
    match Answer.parse? (Answer.payload reply) (← get).reader with
    | some d => return if d.truthy then .data d else .empty
    | none => return .empty

/-- The replacements that an answer asks for: a single one makes a list of its own. -/
def replacements : Datum → Datum
  | .dict es => .list [.dict es]
  | d => d

def fix (m : Model) (message : String) (context : Option String) (n : Option Int)
    (lang : String) : Run Datum := do
  let prompt := Prompt.single message context n lang
  match ← m.request prompt with
  | .data d => return replacements d
  | .empty => Run.say "  [RETRY] JSON 解析失败，重试中..."
  | .failure e => Run.say s!"  [RETRY] 异常: {e.message}，重试中..."
  match ← m.request prompt with
  | .data d => return replacements d
  | .empty => return .list []
  | .failure e =>
    Run.say s!"  [WARN] LLM 解析失败: {e.message}"
    return .list []

/-- Asks for the repair of several errors; an answer that is not JSON counts as none. -/
def fixBatch (m : Model) (errors : List String) (lang : String) : Run Datum := do
  if errors.isEmpty then return .list []
  match ← Run.caught (m.ask (Prompt.batch errors lang)) with
  | .error _ => return .list []
  | .ok reply =>
    match Json.parse (Answer.payload reply) (← get).reader.depth with
    | .ok d => return d
    | .error _ => return .list []

end Mender.Model
