import Mender.Proofs.Budget
import Mender.Proofs.Context
import Mender.Proofs.Trim

/-! What a prompt says of the faulty line. The rows of a context begin with a mark or with blanks and
only then with their numbers, but the faulty line is looked for in a row that begins with its
number. So it is never found there, and every prompt calls the faulty line unknown. -/
namespace Mender
open Text

namespace Run
variable {α β : Type} {prompt : String} {n : Nat}

/-- A run sends one prompt, at least so often and no other. -/
def Repeats (prompt : String) (n : Nat) (x : Run α) : Prop := ∀ w : World, ∃ sent,
  (x.after w).prompts = w.prompts ++ sent ∧ n ≤ sent.length ∧ ∀ p ∈ sent, p = prompt

private theorem Repeats.of_keeps {x : Run α} [h : Keeps World.unasked x] : Repeats prompt 0 x :=
  fun w => ⟨[], (h.keeps w : _ = _).trans (List.append_nil _).symm, Nat.le_refl 0, by simp⟩

private theorem Repeats.bind {x : Run α} {f : α → Run β} (h : Repeats prompt n x)
    (k : ∀ a, Repeats prompt 0 (f a)) : Repeats prompt n (x >>= f) := by
  intro w
  obtain ⟨sent, hs, hn, hp⟩ := h w
  cases hx : x.result w with
  | error e =>
    rw [(bind_error hx).2]
    exact ⟨sent, hs, hn, hp⟩
  | ok a =>
    rw [(bind_ok hx).2]
    obtain ⟨more, hm, -, hq⟩ := k a (x.after w)
    refine ⟨sent ++ more, by rw [hm, hs, List.append_assoc], ?_, fun p hmem => ?_⟩
    · rw [List.length_append]
      exact Nat.le_add_right_of_le hn
    · rcases List.mem_append.mp hmem with hmem | hmem
      · exact hp p hmem
      · exact hq p hmem

end Run

namespace Model
open Run
variable (m : Model)

private theorem repeats_request (prompt : String) : Repeats prompt 1 (m.request prompt) :=
  fun w => ⟨[prompt], m.prompts_request prompt w, Nat.le_refl 1, by simp⟩

theorem repeats_fix (message : String) (context : Option String) (n : Option Int) (lang : String) :
    Repeats (Prompt.single message context n lang) 1 (m.fix message context n lang) := by
  have hagain (note : String) : Repeats (Prompt.single message context n lang) 0
      (say note >>= fun _ => m.request (Prompt.single message context n lang)) := by
    refine Repeats.of_keeps.bind fun _ w => ?_
    obtain ⟨sent, hs, -, hp⟩ := m.repeats_request (Prompt.single message context n lang) w
    exact ⟨sent, hs, Nat.zero_le _, hp⟩
  refine (m.repeats_request _).bind fun r => ?_
  cases r with
  | data d => exact .of_keeps
  | empty =>
    refine (hagain _).bind fun r => ?_
    cases r <;> exact .of_keeps
  | failure e =>
    refine (hagain _).bind fun r => ?_
    cases r <;> exact .of_keeps

end Model

namespace Prompt
open Diagnostic

/-- The row of a prompt that has the faulty line. It stands behind the message, which can have
several lines. -/
def faultyRow? (message prompt : String) : Option String :=
  (lines prompt)[(lines (take 400 message)).length + 8]?

/-- A prompt about a message shows a text as the faulty line. -/
def Shows (message prompt text : String) : Prop :=
  faultyRow? message prompt = some s!"- 出错代码: `{text}`"

theorem Shows.unique {message prompt a b : String} (ha : Shows message prompt a)
    (hb : Shows message prompt b) : a = b := by
  have h := congrArg String.toList (Option.some.inj (ha.symm.trans hb))
  simp only [String.toList_append] at h
  exact String.toList_inj.mp (List.append_cancel_left (List.append_cancel_right h))

theorem shows_single (message : String) (context : Option String) (n : Option Int) (l : Language)
    (hn : Unbroken (shown (n.map toString)))
    (hf : Unbroken ((faultyLine? context n).getD "未知")) :
    Shows message (single message context n l.name) ((faultyLine? context n).getD "未知") := by
  let count := shown (n.map toString)
  let faulty := (faultyLine? context n).getD "未知"
  let number := s!"- 行号: 第 {count} 行"
  let title := s!"## {upper l.name} 语法修复任务"
  let row := s!"- 出错代码: `{faulty}`"
  obtain ⟨rest, hrows⟩ : ∃ rest, single message context n l.name = unlines
      (([title, "", "### 错误信息", "```"] ++ [take 400 message] ++
        ["```", "", "### 出错位置", number]) ++ row :: rest) := ⟨_, rfl⟩
  have htitle : Unbroken title := by
    cases l <;> decide
  have hnumber : Unbroken number := ((Unbroken.append (by decide) hn).append (by decide))
  have hrow : Unbroken row := ((Unbroken.append (by decide) hf).append (by decide))
  have hfirst : [title, "", "### 错误信息", "```"].flatMap lines =
      [title, "", "### 错误信息", "```"] := flatMap_lines (by simpa [Unbroken] using htitle)
  have hsecond : ["```", "", "### 出错位置", number].flatMap lines =
      ["```", "", "### 出错位置", number] := flatMap_lines (by simpa [Unbroken] using hnumber)
  have hlength : (lines (take 400 message)).length + 8 =
      ([title, "", "### 错误信息", "```"] ++ lines (take 400 message) ++
        ["```", "", "### 出错位置", number]).length := by
    simp only [List.length_append, List.length_cons, List.length_nil]
    omega
  rw [Shows, faultyRow?, hrows, lines_unlines_flatMap (by simp), List.flatMap_append,
    List.flatMap_append, List.flatMap_append, hfirst, hsecond, List.flatMap_singleton,
    List.flatMap_cons, lines_of_not_mem hrow, hlength, List.getElem?_append_right (Nat.le_refl _),
    Nat.sub_self]
  rfl

private theorem startsWith_contextRow (ns : List Int) (k n : Nat) (line : String) :
    startsWith (contextRow ns k line) s!"{(n : Int)}:" = false := by
  obtain ⟨d, ds, hd⟩ := List.exists_cons_of_ne_nil (Nat.toDigits_ne_nil (n := n) (b := 10))
  have hdecimal : isDecimal d = true := isDecimal_toDigits n d (hd ▸ List.mem_cons_self)
  have hmark : (s!"{(n : Int)}:").toList = d :: (ds ++ [':']) := by
    change (toString n ++ ":").toList = _
    rw [String.toList_append, show (toString n).toList = Nat.toDigits 10 n from String.toList_ofList,
      hd]
    rfl
  rw [startsWith, hmark, contextRow_eq, Bool.eq_false_iff, ne_eq, List.isPrefixOf_iff_prefix]
  simp only [String.toList_append, List.append_assoc]
  by_cases hk : (k : Int) ∈ ns
  · rw [if_pos hk]
    intro h
    obtain ⟨rfl, -⟩ := List.cons_prefix_cons.mp h
    exact absurd hdecimal (by decide)
  · rw [if_neg hk]
    intro h
    obtain ⟨rfl, -⟩ := List.cons_prefix_cons.mp h
    exact absurd hdecimal (by decide)

section Context
variable {l : Language} {code message ctx line : String} {n : Nat}

private theorem faultyLine_of_context {p : Int} (h : context l code message = .ok (some (p, ctx)))
    (n : Nat) : faultyLine? (some ctx) (some n) = none := by
  have hrows : ∀ row ∈ lines ctx, startsWith row s!"{(n : Int)}:" = false := by
    obtain ⟨ns, ks, -, rfl, -, -⟩ := rows_of_context h
    intro row hr
    by_cases hne : ks = []
    · subst hne
      obtain rfl := List.mem_singleton.mp (show row ∈ [""] from hr)
      rw [Bool.eq_false_iff, ne_eq, startsWith, List.isPrefixOf_iff_prefix, String.toList_empty,
        List.prefix_nil, String.toList_eq_nil_iff, String.append_eq_empty_iff]
      exact fun h => absurd h.2 (by decide)
    · rw [lines_shownRows (p :: ns) code hne] at hr
      obtain ⟨k, -, rfl⟩ := List.mem_map.mp hr
      exact startsWith_contextRow (p :: ns) k n _
  have hnone : (lines ctx).find? (fun row => startsWith row s!"{(n : Int)}:") = none := by
    rw [List.find?_eq_none]
    intro row hr
    exact Bool.eq_false_iff.mp (hrows row hr)
  unfold faultyLine?
  split
  · rfl
  · rfl
  · rename_i k _ hk
    obtain rfl := Option.some.inj hk
    dsimp only [Option.getD_some]
    rw [hnone]

private theorem row_mem_context (h : context l code message = .ok (some ((n : Int), ctx)))
    (hn : 1 ≤ n) (hline : (lines code)[n - 1]? = some line) :
    ">>> " ++ toString n ++ ": " ++ line ∈ lines ctx := by
  obtain ⟨ns, ks, -, rfl, -, hall⟩ := rows_of_context h
  have hmem := hall n List.mem_cons_self hn (by
    have := (List.getElem?_eq_some_iff.mp hline).1
    omega)
  have hrow : shownRow ((n : Int) :: ns) code n = ">>> " ++ toString n ++ ": " ++ line := by
    rw [shownRow, contextRow_eq, if_pos List.mem_cons_self, List.getD_eq_getElem?_getD, hline,
      Option.getD_some]
  rw [lines_shownRows _ code (List.ne_nil_of_mem hmem), ← hrow]
  exact List.mem_map_of_mem hmem

end Context

end Prompt

open Diagnostic Prompt in
/-- The context of an error has the marked row of the faulty line, but no prompt made from it shows
the line: all that are sent call it unknown. -/
theorem Model.faulty_line_shown_iff (m : Model) {l : Language} {code message ctx line : String}
    {n : Nat} (hc : context l code message = .ok (some ((n : Int), ctx))) (hn : 1 ≤ n)
    (hline : (lines code)[n - 1]? = some line) (w : World) :
    ">>> " ++ toString n ++ ": " ++ line ∈ lines ctx ∧
    ∃ sent, ((m.fix message (some ctx) (some n) l.name).after w).prompts = w.prompts ++ sent ∧
      sent ≠ [] ∧ ∀ prompt ∈ sent, Shows message prompt "未知" ∧
        (Shows message prompt (trim line) ↔ trim line = "未知") := by
  have hshows : Shows message (single message (some ctx) (some n) l.name) "未知" := by
    have h := shows_single message (some ctx) (some (n : Int)) l (unbroken_toString n)
    rw [faultyLine_of_context hc n] at h
    exact h (by decide)
  obtain ⟨sent, hs, hlen, hp⟩ := m.repeats_fix message (some ctx) (some n) l.name w
  refine ⟨row_mem_context hc hn hline, sent, hs, List.ne_nil_of_length_pos hlen, ?_⟩
  intro prompt hmem
  rw [hp prompt hmem]
  refine ⟨hshows, fun h => h.unique hshows, fun h => ?_⟩
  rw [h]
  exact hshows

open Diagnostic Prompt in
/-- The context shows a line that ends too early, and the prompt calls it unknown. -/
theorem Model.early_end_not_shown :
    context .python "x = 1 +" "line 1" = .ok (some (1, ">>> 1: x = 1 +")) ∧
    ∃ sent, ((Model.direct.fix "line 1" (some ">>> 1: x = 1 +") (some 1) "python").after {}).prompts =
      sent ∧ sent ≠ [] ∧ ∀ prompt ∈ sent, Shows "line 1" prompt "未知" ∧
        ¬ Shows "line 1" prompt "x = 1 +" := by
  have hc : context .python "x = 1 +" "line 1" = .ok (some (1, ">>> 1: x = 1 +")) := by
    rw [context, (allLines_eq_ok_iff (by decide)).mpr extracted_first_line]
    decide +kernel
  have hline : (lines "x = 1 +")[1 - 1]? = some "x = 1 +" := by decide
  obtain ⟨-, sent, hs, hne, hall⟩ :=
    Model.direct.faulty_line_shown_iff (n := 1) hc (by decide) hline {}
  refine ⟨hc, sent, hs, hne, fun prompt hp => ⟨(hall prompt hp).1, fun h => ?_⟩⟩
  exact absurd ((hall prompt hp).2.mp h) (by decide)

end Mender
