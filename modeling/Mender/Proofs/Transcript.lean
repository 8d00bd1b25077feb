import Mender.Proofs.Revision

/-! The commands of a run with the answers to them. The answers are those of the rules that the run
starts with, so the commands alone determine them. -/
namespace Mender
open Run

/-- Rules answer commands one after the other; what is left of them. -/
inductive Answers : List CommandRule → List (Command × Response) → List CommandRule → Prop
  | nil (rules : List CommandRule) : Answers rules [] rules
  /-- The first command is answered, and the rules left answer the others. -/
  | cons {c : Command} {r : Response} {rules left last : List CommandRule}
    {t : List (Command × Response)} (first : c.answer rules = (r, left))
    (rest : Answers left t last) : Answers rules ((c, r) :: t) last

private theorem Answers.append {rules left last : List CommandRule}
    {s t : List (Command × Response)}
    (h : Answers rules s left) (k : Answers left t last) : Answers rules (s ++ t) last := by
  induction h with
  | nil rules => exact k
  | cons first _ ih => exact .cons first (ih k)

theorem Answers.of_nil {last : List CommandRule} {t : List (Command × Response)}
    (h : Answers [] t last) : ∀ e ∈ t, e.2 = defaultResponse e.1.words := by
  generalize hn : ([] : List CommandRule) = rules at h
  induction h with
  | nil rules => simp
  | cons first _ ih =>
    subst hn
    obtain ⟨rfl, rfl⟩ := Prod.mk.inj first
    intro e he
    obtain rfl | he := List.mem_cons.mp he
    · rfl
    · exact ih rfl e he

namespace World
variable {u v w : World} {s t : List (Command × Response)}

/-- Between two surroundings commands were given and answered. -/
structure Talk (w : World) (t : List (Command × Response)) (v : World) : Prop where
  commands : v.commands = w.commands ++ t.map Prod.fst
  answers : Answers w.commandRules t v.commandRules

theorem Talk.of_eq (hc : v.commands = w.commands) (hr : v.commandRules = w.commandRules) :
    w.Talk [] v := ⟨by simp [hc], hr ▸ .nil _⟩

theorem Talk.trans (h : u.Talk s v) (k : v.Talk t w) : u.Talk (s ++ t) w where
  commands := by rw [k.commands, h.commands, List.map_append, List.append_assoc]
  answers := h.answers.append k.answers

theorem talk_issued (w : World) (c : Command) :
    w.Talk [(c, (c.answer w.commandRules).1)] (w.issued c) := ⟨rfl, .cons rfl (.nil _)⟩

def silent : Frame where
  rel w v := w.Talk [] v
  trans h k := h.trans k
  quiet h := .of_eq h.commands h.commandRules

instance : silent.Stores := ⟨fun _ _ _ => .of_eq rfl rfl⟩

instance : silent.Asks := ⟨fun _ _ _ _ _ => .of_eq rfl rfl⟩

def told : Frame where
  rel w v := ∃ t, w.Talk t v
  trans := fun ⟨_, h⟩ ⟨_, k⟩ => ⟨_, h.trans k⟩
  quiet h := ⟨[], .of_eq h.commands h.commandRules⟩

instance : told.Issues := ⟨fun w c => ⟨_, talk_issued w c⟩⟩

instance : told.Stores := ⟨fun _ _ _ => ⟨[], .of_eq rfl rfl⟩⟩

instance : told.Asks := ⟨fun _ _ _ _ _ => ⟨[], .of_eq rfl rfl⟩⟩

end World

namespace Run
open World
variable {w v : World} {c : Command}

theorem Ends.of_caught_command {r : Except Fault (Int × String × String)}
    (h : Ends (caught (command c)) w r v) : ∃ a, w.Talk [(c, a)] v ∧ r = outcome c a := by
  obtain ⟨rfl, rfl⟩ := h.of_caught
  rw [(run_command c w).1, (run_command c w).2]
  exact ⟨_, talk_issued w c, rfl⟩

theorem Ends.talk {a : Int × String × String} (h : Ends (command c) w a v) :
    ∃ r, w.Talk [(c, r)] v := h.of_command ▸ ⟨_, talk_issued w c⟩

end Run

end Mender
