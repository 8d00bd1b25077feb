import Mender.Proofs.Revision

/-! Which replies of the model a repair survives. Whatever can be read from a reply is handed on as
the replacements to make, but only dictionaries of texts, alone or in a collection, are such. -/
namespace Mender

namespace Datum

end Datum

namespace Replacement
variable {d : Datum}

end Replacement

def Reply.data? (reader : Answer.Reader) : Reply → Option Datum
  | .text s => (Answer.parse? (Answer.payload s) reader).filter Datum.truthy
  | .failure _ => none

namespace Model
open Run

/-- The data that two requests get from the replies to come: those of the first of them that has
any. -/
def heard (t : Talk) : Option Datum := (t.replies.take 2).findSome? (Reply.data? t.reader)

/-- Asks for the repair of one error and carries out what the answer asks for. -/
def revise (m : Model) (code message : String) (context : Option String) (n : Option Int)
    (lang : String) : Run String := do
  let d ← m.fix message context n lang
  if d.truthy then ofNoted (Replacement.applyDatum code d) else return code

private theorem caught_ask (m : Model) (prompt : String) (w : World) :
    ∃ r, (caught (m.ask prompt)).result w = .ok r ∧
      ((caught (m.ask prompt)).after w).talk = ⟨w.replies.tail, w.reader⟩ ∧
      ∀ s, r = .ok s ↔ w.replies.head? = some (.text s) := by
  obtain ⟨events, hres, haft⟩ := run_query m w
  refine ⟨(m.ask prompt).result w, rfl, ?_⟩
  have hg (v : World) : (get : Run World).result v = .ok v := rfl
  change ((m.ask prompt).after w).talk = _ ∧ _
  rw [ask, (bind_ok hres).1, (bind_ok hres).2, haft, (bind_ok (hg _)).1, (bind_ok (hg _)).2]
  change ((after _ { w with clients := _ }).talk = _ ∧ ∀ s, result _ _ = .ok s ↔ _)
  dsimp only
  cases w.replies with
  | nil => exact ⟨rfl, fun s => ⟨fun h => (by cases h), fun h => (by cases h)⟩⟩
  | cons q rest =>
    cases q with
    | text t => exact ⟨rfl, fun s => ⟨fun h => (by cases h; rfl), fun h => (by cases h; rfl)⟩⟩
    | failure reason => exact ⟨rfl, fun s => ⟨fun h => (by cases h), fun h => (by cases h)⟩⟩

private theorem request_spec (m : Model) (prompt : String) (w : World) :
    ∃ r, (m.request prompt).result w = .ok r ∧
      ((m.request prompt).after w).talk = ⟨w.replies.tail, w.reader⟩ ∧
      ∀ d, r = .data d ↔ w.replies.head?.bind (Reply.data? w.reader) = some d := by
  obtain ⟨r, hr, ha, hs⟩ := caught_ask m prompt w
  rw [request, (bind_ok hr).1, (bind_ok hr).2]
  cases r with
  | error e =>
    refine ⟨_, rfl, ha, fun d => iff_of_false (fun h => by cases h) fun h => ?_⟩
    obtain ⟨q, hq, hd⟩ := Option.bind_eq_some_iff.mp h
    cases q with
    | text s => cases (hs s).mpr hq
    | failure reason => cases hd
  | ok s =>
    have hg (v : World) : (get : Run World).result v = .ok v := rfl
    have hreader : ((caught (m.ask prompt)).after w).reader = w.reader := congrArg Talk.reader ha
    dsimp only
    rw [(hs s).mp rfl, (bind_ok (hg _)).1, (bind_ok (hg _)).2, hreader]
    change ∃ r, _ ∧ ((after _ ((caught (m.ask prompt)).after w)).talk = _) ∧ _
    dsimp only [Option.bind_some, Reply.data?]
    cases Answer.parse? (Answer.payload s) w.reader with
    | none => exact ⟨_, rfl, ha, fun d => iff_of_false (fun h => by cases h) fun h => by cases h⟩
    | some e =>
      refine ⟨_, rfl, ha, fun d => ?_⟩
      cases ht : e.truthy with
      | false => exact iff_of_false (fun h => by cases h) (by simp [Option.filter, ht])
      | true => simp [Option.filter, ht]

theorem result_fix (m : Model) (message : String) (context : Option String) (n : Option Int)
    (lang : String) (w : World) : (m.fix message context n lang).result w =
      .ok (((heard w.talk).map replacements).getD (.list [])) := by
  have hsplit : heard w.talk = (w.replies.head?.bind (Reply.data? w.reader)).or
      (w.replies.tail.head?.bind (Reply.data? w.reader)) := by
    rw [heard, World.talk]
    rcases w.replies with _ | ⟨q, _ | ⟨p, rest⟩⟩
    · rfl
    · cases hq : q.data? w.reader <;> simp [hq]
    · cases hq : q.data? w.reader <;> cases hp : p.data? w.reader <;> simp [hq, hp]
  have hnone {o : Option Datum} {r : Reading} (hd : ∀ d, r = .data d ↔ o = some d)
      (hr : ∀ d, r ≠ .data d) : o = none :=
    Option.eq_none_iff_forall_ne_some.mpr fun d h => hr d ((hd d).mpr h)
  obtain ⟨r, hr, ha, hd⟩ := request_spec m (Prompt.single message context n lang) w
  rw [fix, (bind_ok hr).1, hsplit]
  cases r
  case data d => rw [(hd d).mp rfl]; rfl
  -- both ways of failing lead to the same second request
  all_goals
    rw [hnone hd fun d h => by cases h]
    have hsay (line : String) : (say line).result ((m.request
        (Prompt.single message context n lang)).after w) = .ok ⟨⟩ := rfl
    rw [(bind_ok (hsay _)).1]
    generalize hv : (say _).after _ = v
    have htalk : v.talk = ⟨w.replies.tail, w.reader⟩ := hv ▸ ha
    obtain ⟨hreplies, hreader⟩ := Talk.mk.inj htalk
    obtain ⟨q, hq, -, he⟩ := request_spec m (Prompt.single message context n lang) v
    rw [(bind_ok hq).1, ← hreplies, ← hreader]
    cases q with
    | data d => rw [(he d).mp rfl]; rfl
    | empty => rw [hnone he fun d h => by cases h]; rfl
    | failure e => rw [hnone he fun d h => by cases h]; rfl

end Model

namespace Answer
variable {s : String} {d : Datum}

end Answer

namespace Model
open Run

end Model
end Mender
