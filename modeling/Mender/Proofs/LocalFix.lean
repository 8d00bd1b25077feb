import Mender.Proofs.Capture
import Mender.Proofs.Fault
import Mender.Proofs.Text
import Mender.Rule.LocalFix

/-! Repairs without the model always come to an end, and they report no repair exactly where nothing
was to be done: every number in the way is a run of digits of the message, and a rule that fails is
passed over. -/
namespace Mender
open Text

namespace Diagnostic
open Pattern
variable {message : String}

/-- No run of digits in a message is longer than those that can be read. -/
def Readable (message : String) : Prop :=
  ∀ ds, ds <:+: message.toList → (∀ d ∈ ds, isDecimal d = true) → ds.length ≤ 4300

theorem readable_of_length (h : length message ≤ 4300) : Readable message :=
  fun _ hd _ => (List.IsInfix.length_le hd).trans h

private theorem Readable.of_infix {message line : String} (h : Readable message)
    (hl : line.toList <:+: message.toList) : Readable line :=
  fun ds hd => h ds (hd.trans hl)

theorem Readable.line {message line : String} (h : Readable message)
    (hl : line ∈ lines message) : Readable line :=
  h.of_infix (infix_of_mem_lines hl)

theorem Readable.readNumber {m : Found} {p : Pattern} {i : Nat}
    (h : Readable message) (hm : m.DrawnFrom p message)
    (hi : ∀ e ∈ p.inside, e.1 = i → e.2 = plus .digit) :
    Mender.readNumber (m.group i) = .ok (digitsValue (m.group i).toList) := by
  obtain ⟨hin, hd⟩ := hm.group hi
  exact if_pos (h _ hin hd)

theorem colonNumber_inside : ∀ e ∈ colonNumber.inside, e.1 = 1 → e.2 = plus .digit := by
  decide +kernel

private theorem wordNumber_inside : ∀ e ∈ wordNumber.inside, e.1 = 1 → e.2 = plus .digit := by
  decide +kernel

private theorem fixItLine_inside : ∀ i ∈ [1, 2, 3, 4],
    ∀ e ∈ fixItLine.inside, e.1 = i → e.2 = plus .digit := by
  decide +kernel

theorem Readable.lineNumber (h : Readable message) : ∃ n, lineNumber message = .ok n := by
  unfold Diagnostic.lineNumber
  cases hc : colonNumber.search message with
  | some m =>
    have hn := h.readNumber (drawn_of_search hc) colonNumber_inside
    exact ⟨_, by simp only [hn]; rfl⟩
  | none =>
    cases hw : wordNumber.search message with
    | some m =>
      have hn := h.readNumber (drawn_of_search hw) wordNumber_inside
      exact ⟨_, by simp only [hn]; rfl⟩
    | none => exact ⟨none, rfl⟩

private theorem Readable.fixIts (h : Readable message) : ∃ fs, fixIts message = .ok fs := by
  refine ⟨_, mapM_eq_ok_map (g := fun m => ⟨digitsValue (m.group 1).toList,
    digitsValue (m.group 2).toList, digitsValue (m.group 3).toList, digitsValue (m.group 4).toList,
    unescapeFixIt (m.group 5)⟩) fun m hm => ?_⟩
  have number (i : Nat) (hi : i ∈ [1, 2, 3, 4]) :
      Mender.readNumber (m.group i) = .ok (digitsValue (m.group i).toList) :=
    h.readNumber (drawn_of_findAll hm) (fixItLine_inside i hi)
  rw [number 1 (by simp), number 2 (by simp), number 3 (by simp), number 4 (by simp)]
  rfl

theorem Readable.tryFixIts (h : Readable message) (code lang : String) :
    ∃ a, tryFixIts code message lang = .ok a := by
  unfold Diagnostic.tryFixIts
  split
  · obtain ⟨fs, hfs⟩ := h.fixIts
    rw [hfs]
    by_cases he : fs.isEmpty = true
    · exact ⟨_, if_pos he⟩
    · exact ⟨_, if_neg he⟩
  · exact ⟨_, rfl⟩

private theorem templateFrom_plain (groups fuel : Nat) {c : Char} (cs : List Char) (h : c ≠ '\\') :
    templateFrom groups (fuel + 1) (c :: cs) =
      (templateFrom groups fuel cs).map (.char c :: ·) := by
  rw [templateFrom.eq_def]
  split
  · cases ‹fuel + 1 = 0›
  · cases ‹c :: cs = []›
  · exact absurd (List.cons.inj ‹_›).1 h
  · rename_i hf hc
    cases hf
    cases hc
    rfl

private theorem readTemplate_plain {name : String} (groups : Nat) (h : '\\' ∉ name.toList) :
    readTemplate groups name = .ok (name.toList.map .char) := by
  have hfrom (fuel : Nat) (cs : List Char) (hf : cs.length ≤ fuel) (hcs : '\\' ∉ cs) :
      templateFrom groups fuel cs = .ok (cs.map .char) := by
    induction cs generalizing fuel with
    | nil => cases fuel <;> simp [templateFrom]
    | cons c cs ih =>
      rw [List.mem_cons, not_or] at hcs
      cases fuel with
      | zero => exact absurd hf (Nat.not_succ_le_zero _)
      | succ fuel =>
        rw [templateFrom_plain _ _ _ (Ne.symm hcs.1), ih fuel (Nat.le_of_succ_le_succ hf) hcs.2]
        rfl
  exact hfrom _ _ (Nat.le_succ _) h

private theorem suggestionForms_inside : ∀ p ∈ suggestionForms,
    ∀ e ∈ p.inside, e.1 = 1 → e.2 = plus .word := by
  decide +kernel

theorem word_of_suggestion {message name : String} (h : name ∈ suggestions message) :
    ∀ c ∈ name.toList, isWord c = true := by
  obtain ⟨p, hp, hn⟩ := List.mem_flatMap.mp h
  obtain ⟨m, hm, rfl⟩ := List.mem_map.mp hn
  exact ((drawn_of_findAll hm).group (suggestionForms_inside p hp)).2

theorem readTemplate_suggestion {message name : String} (h : name ∈ suggestions message) :
    readTemplate 0 name = .ok (name.toList.map .char) :=
  readTemplate_plain 0 fun hb => absurd (word_of_suggestion h _ hb) (by decide +kernel)

theorem Readable.applySuggestion (h : Readable message) (code : String) :
    ∃ a, applySuggestion code message (suggestions message) = .ok a := by
  cases hs : suggestions message with
  | nil => exact ⟨_, rfl⟩
  | cons name names =>
    obtain ⟨n, hn⟩ := h.lineNumber
    have hname : name ∈ suggestions message := hs ▸ List.mem_cons_self
    have hp := readTemplate_suggestion hname
    unfold Diagnostic.applySuggestion
    dsimp only
    rw [hn]
    dsimp only [bind, Except.bind]
    cases undeclared? message with
    | none => exact ⟨_, rfl⟩
    | some wrong =>
      dsimp only
      split
      · exact ⟨_, rfl⟩
      · rw [hp]
        dsimp only
        split <;> exact ⟨_, rfl⟩

end Diagnostic

namespace Repair
open Diagnostic

private theorem semicolonForMessageLine_total {line : String} (h : Readable line) (code : String) :
    ∃ e, semicolonForMessageLine code line = .ok e := by
  unfold semicolonForMessageLine
  split
  · exact ⟨_, rfl⟩
  · dsimp only
    split
    · exact ⟨_, rfl⟩
    · split
      · exact ⟨_, rfl⟩
      · rename_i m hm
        have hn := h.readNumber (Pattern.drawn_of_search hm) colonNumber_inside
        rw [hn]
        dsimp only
        split <;> exact ⟨_, rfl⟩

theorem semicolonBeforeWord_total {message : String} (h : Readable message) (code : String) :
    ∃ e, semicolonBeforeWord code message = .ok e := by
  have hgo (ls : List String) (hls : ∀ line ∈ ls, Readable line) :
      ∃ e, semicolonBeforeWord.go code ls = .ok e := by
    induction ls with
    | nil => exact ⟨_, rfl⟩
    | cons line ls ih =>
      obtain ⟨hline, hls⟩ := List.forall_mem_cons.mp hls
      obtain ⟨e, he⟩ := semicolonForMessageLine_total hline code
      unfold semicolonBeforeWord.go
      rw [he]
      cases e with
      | none => exact ih hls
      | some e => exact ⟨e, rfl⟩
  exact hgo (lines message) fun _ hl => h.line hl

end Repair

namespace Noted
variable {α β : Type} {H : Prop} {P : α → Prop} {Q : β → Prop} {x : Noted α}

/-- A computation gives a value with a property, whatever was noted before; it fails only where a
condition does not hold. -/
def Gives (H : Prop) (x : Noted α) (P : α → Prop) : Prop :=
  ∀ notes, match (x.run.run notes).1 with
    | .ok a => P a
    | .error _ => ¬ H

theorem Gives.total (h : Gives H x P) (hH : H) : ∃ a, x.outcome.1 = .ok a := by
  have hx := h []
  cases hr : (x.run.run []).1 with
  | ok a => exact ⟨a, hr⟩
  | error e =>
    rw [hr] at hx
    exact absurd hH hx

theorem Gives.of_outcome {a : α} (h : Gives H x P) (ha : x.outcome.1 = .ok a) : P a := by
  have hx := h []
  change (x.run.run []).1 = .ok a at ha
  rwa [ha] at hx

theorem Gives.exists (h : Gives H x P) (hH : H) : ∃ a, x.outcome.1 = .ok a ∧ P a := by
  obtain ⟨a, ha⟩ := h.total hH
  exact ⟨a, ha, h.of_outcome ha⟩

theorem Gives.pure {a : α} (h : P a) : Gives H (pure a) P := fun _ => h

theorem Gives.bind {f : α → Noted β} (h : Gives H x P)
    (k : ∀ a, P a → Gives H (f a) Q) : Gives H (x >>= f) Q := by
  intro notes
  have hx := h notes
  change match (ExceptT.bindCont f (x.run.run notes).1 (x.run.run notes).2).1 with
    | .ok a => Q a
    | .error _ => ¬ H
  cases hr : (x.run.run notes).1 with
  | ok a =>
    rw [hr] at hx
    exact k a hx _
  | error e =>
    rw [hr] at hx
    exact hx

theorem Gives.mono {R : α → Prop} (h : Gives H x P) (k : ∀ a, P a → R a) : Gives H x R := by
  intro notes
  have hx := h notes
  cases hr : (x.run.run notes).1 with
  | ok a =>
    rw [hr] at hx
    exact k a hx
  | error e =>
    rw [hr] at hx
    exact hx

theorem gives_ofExcept {x : Except Fault α} (h : H → ∃ a, x = .ok a) :
    Gives H (ofExcept x) (x = .ok ·) := by
  intro _
  cases x with
  | ok a => exact rfl
  | error e =>
    intro hH
    obtain ⟨a, ha⟩ := h hH
    cases ha

theorem gives_notes (ls : List String) : Gives H (notes ls) fun _ => True := fun _ => trivial

theorem gives_note (line : String) : Gives H (note line) fun _ => True := gives_notes [line]

theorem gives_edit (e : Edit) : Gives H (edit e) (· = e.code) := fun _ => rfl

end Noted

def Rule.Edits (r : Rule) (modules : ModuleIndex) (line code new : String) : Prop :=
  ∃ remedy found e, r.remedy = some remedy ∧ r.pattern.search line = some found ∧
    remedy.apply ⟨found, line, code, modules⟩ = .ok e ∧ e.code = new ∧ new ≠ code

theorem changed_eq_some_iff {old new text : String} :
    changed old new = some text ↔ new = text ∧ text ≠ old := by
  unfold changed
  split <;> grind

def Rule.edit? (r : Rule) (modules : ModuleIndex) (line code : String) : Option String := do
  let remedy ← r.remedy
  let found ← r.pattern.search line
  let e ← (remedy.apply ⟨found, line, code, modules⟩).toOption
  changed code e.code

theorem Rule.edit?_eq_some_iff {r : Rule} {modules : ModuleIndex} {line code new : String} :
    r.edit? modules line code = some new ↔ r.Edits modules line code new := by
  have hok (x : Except Fault Edit) (e : Edit) : x.toOption = some e ↔ x = .ok e := by
    cases x <;> simp [Except.toOption]
  simp only [edit?, Edits, Option.bind_eq_bind, Option.bind_eq_some_iff, hok, changed_eq_some_iff]
  grind

theorem Rule.edit?_eq_none_iff {r : Rule} {modules : ModuleIndex} {line code : String} :
    r.edit? modules line code = none ↔ ∀ new, ¬ r.Edits modules line code new := by
  simp only [Option.eq_none_iff_forall_ne_some, ne_eq, edit?_eq_some_iff]

def Rule.firstEdit? (rules : List Rule) (modules : ModuleIndex) (line code : String) :
    Option String :=
  rules.findSome? (·.edit? modules line code)

namespace LocalFix
open Noted Diagnostic
variable {H : Prop} {E F : String → String → Prop} {j k m : Nat} {s t u : LocalFix}
variable {x : Noted LocalFix} {a b : String}

  {modules : ModuleIndex} {code message lang : String}

inductive Edited (E : String → String → Prop) : Nat → String → String → Prop
  | none (code : String) : Edited E 0 code code
  | more {n : Nat} {a b c : String} : E a b → Edited E n b c → Edited E (n + 1) a c

theorem Edited.eq (h : Edited E 0 a b) : b = a := by cases h; rfl

theorem Edited.first (h : Edited E (k + 1) a b) : ∃ c, E a c := by
  cases h with
  | more he _ => exact ⟨_, he⟩

theorem Edited.single (h : Edited E 1 a b) : E a b := by
  cases h with
  | more he h => exact h.eq ▸ he

theorem Edited.mono (hE : ∀ x y, E x y → F x y) (h : Edited E k a b) : Edited F k a b := by
  induction h with
  | none code => exact .none code
  | more he _ ih => exact .more (hE _ _ he) ih

theorem Edited.append {a b c : String} (h : Edited E j a b) (h' : Edited E k b c) :
    Edited E (j + k) a c := by
  induction h with
  | none code => rwa [Nat.zero_add]
  | more he _ ih =>
    rw [Nat.add_right_comm]
    exact .more he (ih h')

/-- A text under repair comes from another by a number of edits, which the flag counts; there is no
edit only where none can be made. -/
structure Progress (E : String → String → Prop) (k : Nat) (s t : LocalFix) : Prop where
  edited : Edited E k s.code t.code
  applied : t.applied = (s.applied || decide (0 < k))
  complete : k = 0 → ∀ new, ¬ E s.code new

theorem Progress.none (hc : t.code = s.code) (ha : t.applied = s.applied)
    (h : ∀ new, ¬ E s.code new) : Progress E 0 s t where
  edited := hc ▸ .none _
  applied := by simp [ha]
  complete _ := h

theorem Progress.one (h : E s.code t.code) (ha : t.applied = true) : Progress E 1 s t where
  edited := .more h (.none _)
  applied := by simp [ha]
  complete h := absurd h (by decide)

theorem Progress.trans (h : Progress E j s t) (h' : Progress F k t u) :
    Progress (fun a b => E a b ∨ F a b) (j + k) s u where
  edited := (h.edited.mono fun _ _ => .inl).append (h'.edited.mono fun _ _ => .inr)
  applied := by
    rw [h'.applied, h.applied, Bool.or_assoc, ← Bool.decide_or]
    simp only [Nat.add_pos_iff_pos_or_pos]
  complete hk new := by
    obtain ⟨rfl, rfl⟩ : j = 0 ∧ k = 0 := by omega
    have hn := h'.complete rfl new
    rw [h.edited.eq] at hn
    exact not_or.mpr ⟨h.complete rfl new, hn⟩

private theorem Progress.congr (h : Progress E k s t) (hEF : ∀ a b, E a b ↔ F a b) :
    Progress F k s t where
  edited := h.edited.mono fun a b => (hEF a b).mp
  applied := h.applied
  complete hk new := mt (hEF _ _).mpr (h.complete hk new)

private theorem Progress.skip (h : Progress F k t u) (hc : t.code = s.code)
    (ha : t.applied = s.applied)
    (hE : ∀ new, ¬ E s.code new) : Progress (fun a b => E a b ∨ F a b) k s u :=
  Nat.zero_add k ▸ (Progress.none hc ha hE).trans h

theorem Progress.applied_eq_false_iff (h : Progress E k s t) (hs : s.applied = false) :
    t.applied = false ↔ ∀ new, ¬ E s.code new := by
  rw [h.applied, hs, Bool.false_or, decide_eq_false_iff_not, Nat.pos_iff_ne_zero, not_not]
  refine ⟨h.complete, fun hn => ?_⟩
  cases k with
  | zero => rfl
  | succ k =>
    obtain ⟨b, hb⟩ := h.edited.first
    exact absurd hb (hn b)

theorem Progress.code_of_not_applied (h : Progress E k s t) (ht : t.applied = false) :
    t.code = s.code := by
  have hk : k = 0 := by simpa [h.applied] using And.right (by simpa [h.applied] using ht)
  subst hk
  exact h.edited.eq

/-- A computation edits a text at most `m` times; it fails only where a condition does not hold. -/
def Makes (H : Prop) (E : String → String → Prop) (m : Nat) (s : LocalFix) (x : Noted LocalFix) :
    Prop := Gives H x fun t => ∃ k ≤ m, Progress E k s t

theorem Makes.bind {n : Nat} {f : LocalFix → Noted LocalFix}
    (h : Makes H E m s x) (h' : ∀ t, Makes H F n t (f t)) :
    Makes H (fun a b => E a b ∨ F a b) (m + n) s (x >>= f) :=
  Gives.bind h fun t ⟨j, hj, hp⟩ =>
    (h' t).mono fun _ ⟨k, hk, hq⟩ => ⟨j + k, Nat.add_le_add hj hk, hp.trans hq⟩

theorem Makes.skip (h : Makes H F m t x) (hc : t.code = s.code)
    (ha : t.applied = s.applied) (hE : ∀ new, ¬ E s.code new) :
    Makes H (fun a b => E a b ∨ F a b) m s x :=
  Gives.mono h fun _ ⟨k, hk, hp⟩ => ⟨k, hk, hp.skip hc ha hE⟩

theorem Makes.congr (h : Makes H E m s x) (hEF : ∀ a b, E a b ↔ F a b) : Makes H F m s x :=
  Gives.mono h fun _ ⟨k, hk, hp⟩ => ⟨k, hk, hp.congr hEF⟩

theorem Makes.le {n : Nat} (h : Makes H E m s x) (hm : m ≤ n) : Makes H E n s x :=
  Gives.mono h fun _ ⟨k, hk, hp⟩ => ⟨k, hk.trans hm, hp⟩

theorem makes_pure (h : ∀ new, ¬ E s.code new) : Makes H E m s (pure s) :=
  .pure ⟨0, Nat.zero_le m, .none rfl rfl h⟩

theorem makes_attempt {a : Attempt} (h : ∀ new, E s.code new ↔ a.applied = true ∧ a.code = new) :
    Makes H E 1 s (attempt s a) := by
  refine (gives_notes a.notes).bind fun _ _ => .pure ?_
  by_cases ha : a.applied = true
  · rw [if_pos ha]
    exact ⟨1, le_rfl, .one ((h _).mpr ⟨ha, rfl⟩) rfl⟩
  · rw [if_neg ha]
    exact ⟨0, Nat.zero_le 1, .none rfl rfl fun new hn => ha ((h new).mp hn).1⟩

theorem makes_settle {e : Edit} {next : LocalFix → Noted LocalFix}
    (h : ∀ new, E s.code new ↔ e.code = new ∧ new ≠ s.code) (hn : Makes H F m s (next s)) :
    Makes H (fun a b => E a b ∨ F a b) (max 1 m) s (settle s e next) := by
  refine (gives_edit e).bind fun new he => ?_
  by_cases hc : new = s.code
  · rw [if_pos hc]
    refine (hn.skip rfl rfl fun new' hE => ?_).le (le_max_right 1 m)
    obtain ⟨rfl, hne⟩ := (h new').mp hE
    exact hne (he ▸ hc)
  · rw [if_neg hc]
    exact .pure ⟨1, le_max_left 1 m, .one (.inl ((h new).mpr ⟨he.symm, hc⟩)) rfl⟩

/-- For one line of a message the first rule with an edit to make changes the text, and no other. -/
theorem gives_applyFirst (line : String) (rules : List Rule) (s : LocalFix) :
    Gives H (applyFirst modules line rules s) fun t =>
      t.code = (Rule.firstEdit? rules modules line s.code).getD s.code ∧
      t.applied = (s.applied || (Rule.firstEdit? rules modules line s.code).isSome) := by
  induction rules generalizing s with
  | nil => exact .pure ⟨rfl, (Bool.or_false _).symm⟩
  | cons r rules ih =>
    have hpass (t : LocalFix) (hc : t.code = s.code) (ha : t.applied = s.applied)
        (hr : r.edit? modules line s.code = none) :
        Gives H (applyFirst modules line rules t) fun u =>
          u.code = (Rule.firstEdit? (r :: rules) modules line s.code).getD s.code ∧
          u.applied = (s.applied || (Rule.firstEdit? (r :: rules) modules line s.code).isSome) := by
      have he : Rule.firstEdit? (r :: rules) modules line s.code =
          Rule.firstEdit? rules modules line s.code :=
        List.findSome?_cons_of_isNone (by rw [hr]; rfl)
      rw [he, ← hc, ← ha]
      exact ih t
    unfold applyFirst
    split
    next remedy found hremedy hfound =>
      have hflag (b : Bool) : (if b then { s with readModules := true } else s).code = s.code ∧
          (if b then { s with readModules := true } else s).applied = s.applied := by
        cases b <;> exact ⟨rfl, rfl⟩
      obtain ⟨hc, ha⟩ := hflag remedy.readsModules
      generalize (if remedy.readsModules then { s with readModules := true } else s) = t at hc ha ⊢
      have hedit : r.edit? modules line s.code =
          (remedy.apply ⟨found, line, t.code, modules⟩).toOption.bind fun e =>
            changed s.code e.code := by
        rw [Rule.edit?, hremedy, hfound, hc]
        rfl
      dsimp only
      split
      next f hf =>
        rw [hf] at hedit
        exact hpass t hc ha hedit
      next e he =>
        replace hedit : r.edit? modules line s.code = changed s.code e.code := by
          rw [hedit, he]
          rfl
        refine (gives_notes e.notes).bind fun _ _ => ?_
        by_cases hsame : e.code = t.code
        · rw [if_pos hsame]
          exact hpass t hc ha (hedit.trans (if_pos (hsame.trans hc)))
        · rw [if_neg hsame]
          have hfirst : Rule.firstEdit? (r :: rules) modules line s.code = some e.code := by
            rw [changed, if_neg (hc ▸ hsame)] at hedit
            exact (List.findSome?_cons_of_isSome (by rw [hedit]; rfl)).trans hedit
          refine (gives_note _).bind fun _ _ => .pure ?_
          rw [hfirst]
          exact ⟨rfl, (Bool.or_true _).symm⟩
    next hnone =>
      refine hpass s rfl rfl (Rule.edit?_eq_none_iff.mpr ?_)
      exact fun new ⟨remedy, found, _, hr, hs, _⟩ => hnone remedy found hr hs

private theorem makes_applyFirst (line : String) (rules : List Rule) (s : LocalFix) :
    Makes H (fun a b => ∃ r ∈ rules, r.Edits modules line a b) 1 s
      (applyFirst modules line rules s) := by
  refine (gives_applyFirst line rules s).mono fun t ⟨hc, ha⟩ => ?_
  cases hf : Rule.firstEdit? rules modules line s.code with
  | none =>
    rw [hf] at hc ha
    refine ⟨0, Nat.zero_le 1, .none hc (by simpa using ha) fun new ⟨r, hr, he⟩ => ?_⟩
    exact Rule.edit?_eq_none_iff.mp (List.findSome?_eq_none_iff.mp hf r hr) new he
  | some new =>
    rw [hf] at hc ha
    obtain ⟨r, hr, he⟩ := List.exists_of_findSome?_eq_some hf
    refine ⟨1, le_rfl, .one ⟨r, hr, ?_⟩ (by simpa using ha)⟩
    exact hc ▸ Rule.edit?_eq_some_iff.mp he

def errorLines (message : String) : Nat := (lines message).countP (contains · "error:")

private theorem makes_applyRules (rules : List Rule) (ls : List String) (s : LocalFix) :
    Makes H (fun a b => ∃ line ∈ ls, contains line "error:" = true ∧
      ∃ r ∈ rules, r.Edits modules line a b) (ls.countP (contains · "error:")) s
      (applyRules modules rules ls s) := by
  induction ls generalizing s with
  | nil => exact makes_pure (by simp)
  | cons line ls ih =>
    unfold applyRules
    by_cases h : contains line "error:" = true
    · rw [if_pos h, List.countP_cons_of_pos (p := (contains · "error:")) h, Nat.add_comm]
      exact ((makes_applyFirst line rules s).bind ih).congr fun a b => by simp [h]
    · rw [if_neg h, List.countP_cons_of_neg (p := (contains · "error:")) h]
      exact (ih s).congr fun a b => by simp [h]

def FixItEdits (message lang code new : String) : Prop :=
  isCompiled lang = true ∧
    ∃ a, tryFixIts code message lang = .ok a ∧ a.applied = true ∧ a.code = new

def SuggestionEdits (message lang code new : String) : Prop :=
  isCompiled lang = true ∧ contains (lower message) "did you mean" = true ∧
    ∃ a, applySuggestion code message (suggestions message) = .ok a ∧ a.applied = true ∧
      a.code = new

def ColonEdits (message lang code new : String) : Prop :=
  (isCompiled lang && contains message "found ':' in nested-name-specifier") = true ∧
    ∃ n, lineNumber message = .ok n ∧ (Repair.singleColon code n).code = new ∧ new ≠ code

def WordEdits (message lang code new : String) : Prop :=
  ((isCompiled lang || lang = "java") && contains message "before '") = true ∧
    ∃ e, Repair.semicolonBeforeWord code message = .ok e ∧ e.code = new ∧ new ≠ code

def RuleEdits (modules : ModuleIndex) (message lang code new : String) : Prop :=
  ∃ l, Language.ofName? lang = some l ∧ ∃ line ∈ lines message, contains line "error:" = true ∧
    ∃ r ∈ l.rules, r.Edits modules line code new

/-- A repair that the compiler does not propose edits a text. -/
def UnaskedEdits (modules : ModuleIndex) (message lang code new : String) : Prop :=
  ColonEdits message lang code new ∨ WordEdits message lang code new ∨
    RuleEdits modules message lang code new

def Edits (modules : ModuleIndex) (message lang code new : String) : Prop :=
  (FixItEdits message lang code new ∨ SuggestionEdits message lang code new) ∨
    UnaskedEdits modules message lang code new

theorem makes_byRules (s : LocalFix) : Makes H (RuleEdits modules message lang)
    (errorLines message) s (byRules modules message lang s) := by
  unfold byRules
  cases hl : Language.ofName? lang with
  | none => exact makes_pure fun new ⟨l, h, _⟩ => by simp [hl] at h
  | some l =>
    exact (makes_applyRules l.rules (lines message) s).congr fun a b => by simp [RuleEdits, hl]

private theorem makes_byWord (s : LocalFix) : Makes (Readable message)
    (fun a b => WordEdits message lang a b ∨ RuleEdits modules message lang a b)
    (max 1 (errorLines message)) s (byWord modules message lang s) := by
  unfold byWord
  split
  next hw =>
    refine (gives_ofExcept fun h => Repair.semicolonBeforeWord_total h s.code).bind fun e he => ?_
    refine makes_settle (fun new => ?_) (makes_byRules s)
    simp only [WordEdits, hw, he, Except.ok.injEq, exists_eq_left', true_and]
  next hw =>
    exact ((makes_byRules s).skip rfl rfl fun new hn => hw hn.1).le (le_max_right ..)

/-- Behind the compiler's proposals there is at most one edit for each line that reports an error,
or one if none does. -/
theorem makes_byColon (s : LocalFix) : Makes (Readable message)
    (UnaskedEdits modules message lang) (max 1 (errorLines message)) s
    (byColon modules message lang s) := by
  unfold byColon
  split
  next hc =>
    refine (gives_ofExcept Readable.lineNumber).bind fun n hn => ?_
    rw [← max_eq_right (le_max_left 1 (errorLines message))]
    refine makes_settle (fun new => ?_) (makes_byWord s)
    simp only [ColonEdits, hc, hn, Except.ok.injEq, exists_eq_left', true_and]
  next hc => exact (makes_byWord s).skip rfl rfl fun new hn => hc hn.1

private theorem makes_byProposals (s : LocalFix) : Makes (Readable message)
    (fun a b => FixItEdits message lang a b ∨ SuggestionEdits message lang a b) 2 s
    (byProposals message lang s) := by
  unfold byProposals
  split
  next hl =>
    refine (gives_ofExcept fun h => h.tryFixIts s.code lang).bind fun a ha => ?_
    refine Makes.bind (n := 1) (makes_attempt fun new => ?_) fun t => ?_
    · simp only [FixItEdits, hl, ha, Except.ok.injEq, exists_eq_left', true_and]
    · split
      next hd =>
        refine (gives_ofExcept fun h => h.applySuggestion t.code).bind fun b hb => ?_
        refine makes_attempt fun new => ?_
        simp only [SuggestionEdits, hl, hd, hb, Except.ok.injEq, exists_eq_left', true_and]
      next hd => exact makes_pure fun new hn => hd hn.2.1
  next hl => exact makes_pure fun new hn => hl (hn.elim And.left And.left)

theorem makes_run (modules : ModuleIndex) (code message lang : String) :
    Makes (Readable message) (Edits modules message lang) (2 + max 1 (errorLines message))
      { code := code } (run modules code message lang) :=
  (makes_byProposals _).bind fun s => makes_byColon s

theorem code_of_not_applied (h : (run modules code message lang).outcome.1 = .ok t)
    (ht : t.applied = false) : t.code = code := by
  obtain ⟨k, -, hp⟩ := (makes_run modules code message lang).of_outcome h
  exact hp.code_of_not_applied ht

/-- A repair always comes to an end. It reports none exactly where no repair has an edit to make,
and then the text is the old one. -/
theorem run_reports_repairs (h : Readable message) (modules : ModuleIndex) (code lang : String) :
    ∃ t, (run modules code message lang).outcome.1 = .ok t ∧
      (t.applied = false → t.code = code) ∧
      (t.applied = false ↔ ∀ new, ¬ Edits modules message lang code new) := by
  have hmakes := makes_run modules code message lang
  obtain ⟨t, ht⟩ := hmakes.total h
  obtain ⟨k, -, hp⟩ := hmakes.of_outcome ht
  exact ⟨t, ht, hp.code_of_not_applied, hp.applied_eq_false_iff rfl⟩

/-- A rule that fails because the message gives no line is passed over, and the text left alone. -/
theorem failing_rule_passed_over :
    Readable "error: expected ';' before" ∧
      ∃ t, (run [] "x = 1" "error: expected ';' before" "c").outcome.1 = .ok t ∧
        t.code = "x = 1" ∧
        ∀ new, ¬ Edits [] "error: expected ';' before" "c" "x = 1" new := by
  have hr : Readable "error: expected ';' before" :=
    readable_of_length (by decide +kernel)
  obtain ⟨t, ht, hc, ha⟩ := run_reports_repairs hr [] "x = 1" "c"
  have hf : (run [] "x = 1" "error: expected ';' before" "c").outcome.1.toOption.map
      LocalFix.applied = some false := by
    decide +kernel
  rw [ht] at hf
  have hf : t.applied = false := Option.some.inj hf
  exact ⟨hr, t, ht, hc hf, ha.mp hf⟩

theorem UnaskedEdits.ne {new : String} (h : UnaskedEdits modules message lang code new) :
    new ≠ code := by
  obtain ⟨-, -, -, -, h⟩ | ⟨-, -, -, -, h⟩ | ⟨-, -, -, -, -, -, -, -, -, -, -, -, -, -, h⟩ := h <;>
    exact h

private theorem gives_fixed {fs : List FixIt} (hl : isCompiled lang = true)
    (hf : fixIts message = .ok fs) (ha : (applyFixIts code fs).applied = true)
    (hd : contains (lower message) "did you mean" = false) :
    Gives H (byProposals message lang { code := code })
      (· = { code := (applyFixIts code fs).code, applied := true }) := by
  have hne : fs.isEmpty = false := by
    cases fs with
    | nil => exact absurd ha (by simp [applyFixIts])
    | cons f fs => rfl
  have htry : ∃ a, tryFixIts code message lang = .ok a ∧ a.applied = true ∧
      a.code = (applyFixIts code fs).code := by
    have hl : lang = "c" ∨ lang = "cpp" := by simpa [isCompiled] using hl
    unfold tryFixIts
    rw [if_pos hl, hf]
    exact ⟨_, if_neg (by simp [hne]), ha, rfl⟩
  obtain ⟨a, htry, haa, hac⟩ := htry
  unfold byProposals
  rw [if_pos hl]
  refine (gives_ofExcept fun _ => ⟨a, htry⟩).bind fun a' ha' => ?_
  obtain rfl : a = a' := Except.ok.inj (htry.symm.trans ha')
  refine Gives.bind (P := (· = { code := (applyFixIts code fs).code, applied := true }))
    ((gives_notes a.notes).bind fun _ _ => .pure ?_) fun s hs => ?_
  · rw [if_pos haa, hac]
  · simp only [hd, Bool.false_eq_true, if_false]
    exact .pure hs

/-- Where one line of a message reports an error and the compiler's fix-its change the text, the
fixed text is the result exactly if no repair that the compiler does not propose has an edit to make
on it; otherwise one such edit is made on top. -/
theorem run_fixed_iff (modules : ModuleIndex) (code lang : String) {fs : List FixIt}
    (h : Readable message) (h1 : errorLines message = 1) (hl : isCompiled lang = true)
    (hf : fixIts message = .ok fs) (ha : (applyFixIts code fs).applied = true)
    (hd : contains (lower message) "did you mean" = false) :
    ∃ t, (run modules code message lang).outcome.1 = .ok t ∧ t.applied = true ∧
      (t.code = (applyFixIts code fs).code ↔
        ∀ new, ¬ UnaskedEdits modules message lang (applyFixIts code fs).code new) ∧
      (t.code ≠ (applyFixIts code fs).code →
        UnaskedEdits modules message lang (applyFixIts code fs).code t.code) := by
  have hmakes : Makes (Readable message) (UnaskedEdits modules message lang)
      (max 1 (errorLines message)) { code := (applyFixIts code fs).code, applied := true }
      (run modules code message lang) :=
    (gives_fixed hl hf ha hd).bind fun s hs => hs ▸ makes_byColon s
  obtain ⟨t, ht⟩ := hmakes.total h
  obtain ⟨k, hk, hp⟩ := hmakes.of_outcome ht
  refine ⟨t, ht, hp.applied, ?_⟩
  obtain rfl | rfl : k = 0 ∨ k = 1 := by rw [h1, max_self] at hk; omega
  · have hc := hp.edited.eq
    exact ⟨⟨fun _ => hp.complete rfl, fun _ => hc⟩, fun hne => absurd hc hne⟩
  · have he := hp.edited.single
    exact ⟨⟨fun hc => absurd hc he.ne, fun hn => absurd he (hn _)⟩, fun _ => he⟩

/-- A parenthesis that the compiler's fix-it closes is closed once more at the end of the line. -/
theorem parenthesis_closed_twice :
    let message := "a.c:1:6: error: expected ')' before '\x7b' token\n" ++
      "fix-it:\"a.c\":\x7b1:6-1:6\x7d:\")\""
    fixIts message = .ok [⟨1, 6, 1, 6, ")"⟩] ∧
      (applyFixIts "if (x \x7b" [⟨1, 6, 1, 6, ")"⟩]).code = "if (x) \x7b" ∧
      (∃ t, (run [] "if (x \x7b" message "c").outcome.1 = .ok t ∧ t.code = "if (x) \x7b)") ∧
      UnaskedEdits [] message "c" "if (x) \x7b" "if (x) \x7b)" := by
  intro message
  have hf : fixIts message = .ok [⟨1, 6, 1, 6, ")"⟩] := by decide +kernel
  have hc : (applyFixIts "if (x \x7b" [⟨1, 6, 1, 6, ")"⟩]).code = "if (x) \x7b" := by decide +kernel
  obtain ⟨t, ht, -, -, he⟩ := run_fixed_iff [] "if (x \x7b" "c"
    (readable_of_length (by decide +kernel)) (by decide +kernel) (by decide +kernel) hf
    (by decide +kernel) (by decide +kernel)
  have htc : (run [] "if (x \x7b" message "c").outcome.1.toOption.map LocalFix.code =
      some "if (x) \x7b)" := by
    decide +kernel
  rw [ht] at htc
  have htc : t.code = "if (x) \x7b)" := Option.some.inj htc
  rw [hc, htc] at he
  exact ⟨hf, hc, ⟨t, ht, htc⟩, he (by decide)⟩

end LocalFix

end Mender
