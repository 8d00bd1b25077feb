import Mender.Diagnostic.Kind
import Mender.Number.Format

/-! Figures about a run of repairs, and the report made from them. -/
namespace Mender
open Text

structure FoundError where
  kind : String
  file : String
  line : Int
  desc : String
  deriving Repr, DecidableEq

structure FixedError where
  kind : String
  file : String
  line : Int
  method : String
  hard : Bool
  deriving Repr, DecidableEq

/-- An error that was hard to find, with the reason. -/
structure HardError where
  kind : String
  file : String
  line : Int
  reason : String
  deriving Repr, DecidableEq

structure Statistics where
  initial : List FoundError := []
  final : List FoundError := []
  fixed : List FixedError := []
  methods : List (String × Int) := []
  hard : List HardError := []
  filesProcessed : Int := 0
  filesFixed : Int := 0
  rounds : Int := 0
  modelFixes : Int := 0
  localFixes : Int := 0
  deriving Repr, DecidableEq

namespace Statistics

/-- Counts under names with one name counted once more; a new name comes last. -/
def tally (counts : List (String × Int)) (name : String) : List (String × Int) :=
  if counts.any fun c => c.1 = name then
    counts.map fun c => if c.1 = name then (name, c.2 + 1) else c
  else counts ++ [(name, 1)]

def addInitial (s : Statistics) (e : FoundError) : Statistics :=
  { s with initial := s.initial ++ [e] }

def addFinal (s : Statistics) (e : FoundError) : Statistics := { s with final := s.final ++ [e] }

def addFixed (s : Statistics) (e : FixedError) : Statistics :=
  { s with
    fixed := s.fixed ++ [e]
    methods := tally s.methods e.method
    hard :=
      if e.hard then s.hard ++ [⟨e.kind, e.file, e.line, Diagnostic.hardReason e.kind⟩]
      else s.hard }

def byCount (counts : List (String × Int)) : List (String × Int) :=
  counts.mergeSort fun a b => decide (b.2 ≤ a.2)

def rate (s : Statistics) (errors : Nat) : Float :=
  Float.ofNat s.fixed.length / Float.ofNat errors * 100.0

def reportLines (s : Statistics) : List String :=
  let bar := replicate 60 '='
  let percent := Number.fixedText 1 (s.rate s.initial.length)
  [bar, "修复统计报告", bar,
   "\n## 基本统计",
   s!"处理文件数: {s.filesProcessed}",
   s!"修改文件数: {s.filesFixed}",
   s!"迭代次数: {s.rounds}",
   "\n## 错误数量对比",
   s!"修复前错误数: {s.initial.length}",
   s!"修复后错误数: {s.final.length}",
   s!"成功修复数: {s.fixed.length}"] ++
  (if s.initial.isEmpty then [] else [s!"修复率: {percent}%"]) ++
  ["\n## 修复方式统计",
   s!"本地规则修复: {s.localFixes} 次",
   s!"LLM修复: {s.modelFixes} 次"] ++
  (byCount s.methods).map (fun (method, n) => s!"  - {method}: {n} 次") ++
  [s!"\n## 难以发现的错误 (共 {s.hard.length} 个)"] ++
  (if s.hard.isEmpty then ["  无"]
   else s.hard.flatMap fun e => [s!"  - [{e.kind}] {e.file}:{e.line}", s!"    原因: {e.reason}"]) ++
  ["\n## 错误类型分布"] ++
  (byCount (s.fixed.foldl (fun counts e => tally counts e.kind) [])).map fun (kind, n) =>
    s!"  - {kind}: {n} 个"

def report (s : Statistics) : String := unlines s.reportLines

structure Summary where
  initial : Nat
  final : Nat
  fixed : Nat
  /-- The number of errors repaired in percent of those found at first. -/
  rate : Float
  hard : Nat
  localFixes : Int
  modelFixes : Int

def summary (s : Statistics) : Summary :=
  { initial := s.initial.length
    final := s.final.length
    fixed := s.fixed.length
    rate := s.rate (max s.initial.length 1)
    hard := s.hard.length
    localFixes := s.localFixes
    modelFixes := s.modelFixes }

end Statistics

end Mender
