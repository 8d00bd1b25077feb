import Mender.Proofs.FixIt
import Mender.Proofs.LocalFix

/-! What the report of a repair is worth. Each single edit changes the text and the flag tells
whether there was one, but later edits can undo earlier ones. So a report without a change takes two
edits at least, and where a message gives rise to one edit at most the report is exact. -/
namespace Mender
open Text

theorem getElem?_of_lineAt {ls : List String} {n : Option Int} {i : Nat} {line : String}
    (h : lineAt? ls n = some (i, line)) : ls[i]? = some line := by
  unfold lineAt? at h
  split at h
  · cases h
  · obtain ⟨_, hl, he⟩ := Option.map_eq_some_iff.mp h
    cases he
    exact hl

namespace Diagnostic

theorem FixIt.unlines_apply_ne {f : FixIt} {ls new : List String} (h : f.apply ls = some new) :
    unlines new ≠ unlines ls := by
  unfold FixIt.apply at h
  split at h
  · split at h
    · cases h
    · rename_i i line hl
      obtain ⟨text, ht, rfl⟩ := Option.map_eq_some_iff.mp h
      unfold FixIt.onLine at ht
      split at ht
      · exact unlines_set_ne (getElem?_of_lineAt hl) (changed_eq_some_iff.mp ht).2
      · cases ht
  · cases h

theorem length_fixIts {message : String} {fs : List FixIt} (h : fixIts message = .ok fs) :
    fs.length = (fixItLine.findAll message).length := (mapM_eq_ok_iff.mp h).length_eq.symm

private theorem applySuggestion_ne {code message : String} {names : List String} {a : Attempt}
    (h : applySuggestion code message names = .ok a) (ha : a.applied = true) : a.code ≠ code := by
  cases names with
  | nil =>
    cases h
    cases ha
  | cons name names =>
    obtain ⟨n, -, h⟩ := bind_eq_ok.mp h
    split at h
    · cases h
      cases ha
    · dsimp only at h
      split at h
      · cases h
        cases ha
      · rename_i i line hl
        split at h
        · cases h
        · split at h
          · cases h
            cases ha
          · rename_i text ht
            cases h
            exact unlines_set_lines_ne (getElem?_of_lineAt hl) (changed_eq_some_iff.mp ht).2

end Diagnostic

namespace LocalFix
open Noted Diagnostic
variable {H : Prop} {E : String → String → Prop} {m n : Nat} {s t u : LocalFix}
  {modules : ModuleIndex} {code new message lang : String}

/-- A single edit of a repair. The lines that a fix-it finds need not be those of the text: an
earlier fix-it may have put line feeds into one of them. -/
inductive Step (modules : ModuleIndex) (message lang : String) : String → String → Prop
  | fixIt {fs : List FixIt} {f : FixIt} {ls new : List String} (hl : isCompiled lang = true)
      (hfs : fixIts message = .ok fs) (hf : f ∈ fs) (h : f.apply ls = some new) :
      Step modules message lang (unlines ls) (unlines new)
  | suggestion {code new : String} (h : SuggestionEdits message lang code new) :
      Step modules message lang code new
  | unasked {code new : String} (h : UnaskedEdits modules message lang code new) :
      Step modules message lang code new

theorem Step.ne (h : Step modules message lang code new) : new ≠ code := by
  cases h with
  | fixIt hl hfs hf h => exact FixIt.unlines_apply_ne h
  | suggestion h =>
    obtain ⟨-, -, a, ha, happ, rfl⟩ := h
    exact applySuggestion_ne ha happ
  | unasked h => exact h.ne

/-- A text under repair comes from another by at most `m` edits, and the flag tells whether there
was one. -/
def Reaches (E : String → String → Prop) (m : Nat) (s t : LocalFix) : Prop :=
  ∃ k ≤ m, Edited E k s.code t.code ∧ t.applied = (s.applied || decide (0 < k))

theorem Reaches.refl (s : LocalFix) : Reaches E m s s :=
  ⟨0, Nat.zero_le m, .none _, by simp⟩

theorem Reaches.trans (h : Reaches E m s t) (h' : Reaches E n t u) : Reaches E (m + n) s u := by
  obtain ⟨j, hj, he, ha⟩ := h
  obtain ⟨k, hk, he', ha'⟩ := h'
  refine ⟨j + k, Nat.add_le_add hj hk, he.append he', ?_⟩
  rw [ha', ha, Bool.or_assoc, ← Bool.decide_or]
  simp only [Nat.add_pos_iff_pos_or_pos]

theorem Makes.reaches {F : String → String → Prop} {x : Noted LocalFix} (h : Makes H F m s x)
    (hF : ∀ a b, F a b → E a b) : Gives H x (Reaches E m s) :=
  Gives.mono h fun _ ⟨k, hk, hp⟩ => ⟨k, hk, hp.edited.mono hF, hp.applied⟩

private theorem edited_foldl_step {fs : List FixIt}
    (hE : ∀ f ∈ fs, ∀ ls new, f.apply ls = some new → E (unlines ls) (unlines new))
    (state : List String × List String) :
    ∃ k ≤ fs.length, Edited E k (unlines state.1) (unlines (fs.foldl FixIt.step state).1) ∧
      (fs.foldl FixIt.step state).2.length = state.2.length + k := by
  induction fs generalizing state with
  | nil => exact ⟨0, le_rfl, .none _, rfl⟩
  | cons f fs ih =>
    obtain ⟨hf, hfs⟩ := List.forall_mem_cons.mp hE
    obtain ⟨k, hk, he, hn⟩ := ih hfs (FixIt.step state f)
    rw [List.foldl_cons, List.length_cons]
    cases ha : f.apply state.1 with
    | none =>
      have hs : FixIt.step state f = state := by rw [FixIt.step, ha]
      rw [hs] at he hn ⊢
      exact ⟨k, by omega, he, hn⟩
    | some new =>
      have hs : FixIt.step state f = (new, state.2 ++ [f.note]) := by rw [FixIt.step, ha]
      rw [hs] at he hn ⊢
      refine ⟨k + 1, by omega, .more (hf _ _ ha) he, ?_⟩
      rw [hn, List.length_append, List.length_singleton]
      omega

theorem edited_tryFixIts {a : Attempt} (hl : isCompiled lang = true)
    (h : tryFixIts code message lang = .ok a) (ha : a.applied = true) :
    ∃ k ≤ (fixItLine.findAll message).length,
      0 < k ∧ Edited (Step modules message lang) k code a.code := by
  have hc : lang = "c" ∨ lang = "cpp" := by simpa [isCompiled] using hl
  unfold tryFixIts at h
  rw [if_pos hc] at h
  obtain ⟨fs, hfs, h⟩ := bind_eq_ok.mp h
  split at h
  · cases h
    cases ha
  · obtain ⟨k, hk, he, hn⟩ := edited_foldl_step (E := Step modules message lang)
      (fun f hf ls new h => .fixIt hl hfs (List.mem_mergeSort.mp hf) h) (lines code, [])
    cases h
    rw [applyFixIts_eq] at ha ⊢
    rw [unlines_lines] at he
    refine ⟨k, ?_, ?_, he⟩
    · rwa [List.length_mergeSort, length_fixIts hfs] at hk
    · rw [List.length_nil, Nat.zero_add] at hn
      rw [← hn, List.length_pos_iff]
      simpa using ha

private theorem gives_attempt {a : Attempt}
    (h : a.applied = true → ∃ k ≤ m, 0 < k ∧ Edited E k s.code a.code) :
    Gives H (attempt s a) (Reaches E m s) := by
  refine (gives_notes a.notes).bind fun _ _ => .pure ?_
  cases ha : a.applied with
  | false => exact .refl s
  | true =>
    obtain ⟨k, hk, hpos, he⟩ := h ha
    exact ⟨k, hk, he, by simp [hpos]⟩

/-- How many edits the compiler's proposals can make: one for each fix-it, and one for a suggested
name. -/
def proposalLimit (message lang : String) : Nat :=
  if isCompiled lang then
    (fixItLine.findAll message).length + (contains (lower message) "did you mean").toNat
  else 0

/-- Whether a message asks for a colon to be doubled or for a semicolon before a word. -/
def asksEarly (message lang : String) : Bool :=
  isCompiled lang && contains message "found ':' in nested-name-specifier" ||
    (isCompiled lang || lang = "java") && contains message "before '"

/-- How many edits a message can give rise to. Behind the compiler's proposals there is one for each
line that reports an error, or a single one of another kind. -/
def editLimit (message lang : String) : Nat :=
  proposalLimit message lang + max (asksEarly message lang).toNat (errorLines message)

private theorem gives_byProposals (s : LocalFix) : Gives (Readable message)
    (byProposals message lang s)
    (Reaches (Step modules message lang) (proposalLimit message lang) s) := by
  unfold byProposals proposalLimit
  split
  next hl =>
    refine (gives_ofExcept fun h => h.tryFixIts s.code lang).bind fun a ha => ?_
    refine Gives.bind (P := Reaches (Step modules message lang) _ s)
      (gives_attempt (edited_tryFixIts hl ha)) fun t ht => ?_
    split
    next hd =>
      rw [hd]
      refine (gives_ofExcept fun h => h.applySuggestion t.code).bind fun b hb => ?_
      refine (gives_attempt fun happ => ?_).mono fun u hu => ht.trans hu
      have hstep : Step modules message lang t.code b.code :=
        .suggestion ⟨hl, hd, b, hb, happ, rfl⟩
      exact ⟨1, le_rfl, Nat.one_pos, .more hstep (.none _)⟩
    next hd =>
      rw [Bool.not_eq_true] at hd
      rw [hd]
      exact .pure ht
  next hl => exact .pure (.refl s)

private theorem gives_byColon (s : LocalFix) : Gives (Readable message)
    (byColon modules message lang s)
    (Reaches (Step modules message lang) (max (asksEarly message lang).toNat (errorLines message))
      s) := by
  cases ha : asksEarly message lang with
  | true => exact (makes_byColon s).reaches fun _ _ => .unasked
  | false =>
    -- only the rules are left, and they need a line that reports an error
    obtain ⟨hc, hw⟩ := Bool.or_eq_false_iff.mp ha
    have hrules : byColon modules message lang s = byRules modules message lang s := by
      rw [byColon, if_neg (by simp [hc]), byWord, if_neg (by simp [hw])]
    rw [hrules, Bool.toNat_false, Nat.zero_max]
    exact (makes_byRules s).reaches fun _ _ h => .unasked (.inr (.inr h))

private theorem gives_run (modules : ModuleIndex) (code message lang : String) :
    Gives (Readable message) (run modules code message lang)
      (Reaches (Step modules message lang) (editLimit message lang) { code := code }) :=
  (gives_byProposals _).bind fun _ hs => (gives_byColon _).mono fun _ ht => hs.trans ht

/-- A repair is made of edits that change the text, each of them, and it is reported just if there
was one. A report for the text as it was takes two edits at least; where a message gives rise to one
edit at most, the report tells whether the text has changed. -/
theorem run_reports_edits (h : (run modules code message lang).outcome.1 = .ok t) :
    (∃ k ≤ editLimit message lang,
      Edited (fun a b => Step modules message lang a b ∧ b ≠ a) k code t.code ∧
      (t.applied = true ↔ 0 < k) ∧ (t.applied = true → t.code = code → 2 ≤ k)) ∧
    (editLimit message lang ≤ 1 → (t.applied = true ↔ t.code ≠ code)) := by
  obtain ⟨k, hk, he, ha⟩ := (gives_run modules code message lang).of_outcome h
  have he : Edited (fun a b => Step modules message lang a b ∧ b ≠ a) k code t.code :=
    he.mono fun _ _ hs => ⟨hs, hs.ne⟩
  have happ : t.applied = true ↔ 0 < k := by simp [ha]
  -- a single edit has nothing that could undo it
  have hone (h1 : k = 1) : t.code ≠ code := by
    subst h1
    exact he.single.2
  refine ⟨⟨k, hk, he, happ, fun ht hc => ?_⟩, fun hlim => ⟨fun ht => ?_, fun hc => ?_⟩⟩
  · have := happ.mp ht
    have : k ≠ 1 := fun h1 => hone h1 hc
    omega
  · have := happ.mp ht
    exact hone (by omega)
  · rw [happ, Nat.pos_iff_ne_zero]
    rintro rfl
    exact hc he.eq

/-- A brace is added for one error line and taken away for the next: the repair is reported and the
text is the old one. -/
theorem brace_added_and_dropped :
    let code := "int f() \x7b\n  return 0;"
    let message := "a.c:2:12: error: expected '\x7d' at end of input\n" ++
      "a.c:3:1: error: expected declaration before '\x7d' token"
    ∃ t, (run [] code message "c").outcome.1 = .ok t ∧ t.applied = true ∧ t.code = code ∧
      ∃ k, 2 ≤ k ∧ Edited (fun a b => Step [] message "c" a b ∧ b ≠ a) k code code := by
  intro code message
  have hrun : (run [] code message "c").outcome.1.toOption.map (fun t => (t.code, t.applied)) =
      some (code, true) := by
    decide +kernel
  cases ht : (run [] code message "c").outcome.1 with
  | error e =>
    rw [ht] at hrun
    cases hrun
  | ok t =>
    rw [ht] at hrun
    obtain ⟨hc, ha⟩ := Prod.mk.inj (Option.some.inj hrun)
    obtain ⟨⟨k, -, he, -, htwo⟩, -⟩ := run_reports_edits ht
    rw [hc] at he
    exact ⟨t, rfl, ha, hc, k, htwo ha hc, he⟩

end LocalFix

end Mender
