import Mender.Proofs.Capture
import Mender.Proofs.ColonReport
import Mender.Proofs.Trim

/-! Repairs that are told a line keep to it. What such a repair writes comes from the line itself,
from groups of its matches and from fixed texts, so no line feed gets into the line and the numbers
of the other lines stay valid. -/
namespace Mender
open Text

namespace Pattern
variable {p : Pattern} {f : Found → String} {s new : String}

private theorem mem_assemble {limit : Option Nat} {ps : List Piece} {c : Char}
    (h : c ∈ assemble f limit ps) : Piece.char c ∈ ps ∨
      ∃ m, Piece.found m ∈ ps ∧ (c ∈ (f m).toList ∨ c ∈ m.text.toList) := by
  have hlater {piece : Piece} {ps : List Piece}
      (ih : Piece.char c ∈ ps ∨ ∃ m, Piece.found m ∈ ps ∧ (c ∈ (f m).toList ∨ c ∈ m.text.toList)) :
      Piece.char c ∈ piece :: ps ∨
        ∃ m, Piece.found m ∈ piece :: ps ∧ (c ∈ (f m).toList ∨ c ∈ m.text.toList) := by
    rcases ih with ih | ⟨m, hm, hc⟩
    · exact .inl (List.mem_cons_of_mem _ ih)
    · exact .inr ⟨m, List.mem_cons_of_mem _ hm, hc⟩
  fun_induction assemble f limit ps with
  | case1 limit => cases h
  | case2 limit d rest ih =>
    rcases List.mem_cons.mp h with rfl | h
    · exact .inl List.mem_cons_self
    · exact hlater (ih h)
  | case3 m rest ih =>
    rcases List.mem_append.mp h with h | h
    · exact .inr ⟨m, List.mem_cons_self, .inl h⟩
    · exact hlater (ih h)
  | case4 m rest ih =>
    rcases List.mem_append.mp h with h | h
    · exact .inr ⟨m, List.mem_cons_self, .inr h⟩
    · exact hlater (ih h)
  | case5 n m rest ih =>
    rcases List.mem_append.mp h with h | h
    · exact .inr ⟨m, List.mem_cons_self, .inl h⟩
    · exact hlater (ih h)

/-- Replacing matches puts no line feed into a text if none comes with the new texts; these may use
the groups of the matches. -/
theorem unbroken_assemble (hs : Unbroken s) (limit : Option Nat)
    (hf : ∀ m : Found, (∀ i, Unbroken (m.group i)) → Unbroken (f m)) :
    Unbroken (String.ofList (assemble f limit (p.pieces s))) := by
  intro hc
  rw [String.toList_ofList] at hc
  rcases mem_assemble hc with hp | ⟨m, hp, hc⟩
  · rcases mem_pieces hp with ⟨c, hc, he⟩ | ⟨m, u, nonempty, he, -⟩
    · exact hs (Piece.char.inj he ▸ hc)
    · cases he
  · rcases mem_pieces hp with ⟨c, -, he⟩ | ⟨n, u, nonempty, he, hat, hu, hr⟩
    · cases he
    · obtain rfl := Piece.found.inj he
      rcases hc with hc | hc
      · refine hf m (fun i => ?_) hc
        rcases (drawn_of_matchAt hat hu hr).covered i with he | hcov
        · rw [he]
          decide
        · exact hs.of_infix hcov.isInfix
      · obtain ⟨t, w, -, hw, rfl, -⟩ := matchAt_eq_some hat
        exact hs (hr.subset (hw.rest ▸ List.mem_append_left _ hc))

theorem unbroken_replaceBy (hs : Unbroken s)
    (hf : ∀ m : Found, (∀ i, Unbroken (m.group i)) → Unbroken (f m)) :
    Unbroken (p.replaceBy f s) := unbroken_assemble hs none hf

theorem unbroken_replaceAll (hs : Unbroken s) (hn : Unbroken new) :
    Unbroken (p.replaceAll new s) := unbroken_replaceBy hs fun _ _ => hn

end Pattern

/-- Two texts have as many lines, and all but line `n` are the same. -/
structure KeepsTo (n : Option Int) (code new : String) : Prop where
  length : (lines new).length = (lines code).length
  others : ∀ i : Nat, n ≠ some (i + 1 : Int) → (lines new)[i]? = (lines code)[i]?

section Lines
variable {code line new : String} {n : Option Int} {i : Nat}

theorem lineAt_eq_some {ls : List String} :
    lineAt? ls n = some (i, line) ↔ n = some (i + 1 : Int) ∧ ls[i]? = some line := by
  constructor
  · intro h
    unfold lineAt? lineIndex? at h
    cases n with
    | none => cases h
    | some k =>
      dsimp only at h
      split at h
      · cases h
      · rename_i j hj
        split at hj
        · rename_i hk
          obtain ⟨text, htext, he⟩ := Option.map_eq_some_iff.mp h
          obtain ⟨rfl, rfl⟩ := Prod.mk.inj he
          have hindex : k = j + 1 := by
            have := Option.some.inj hj
            omega
          exact ⟨congrArg some hindex, htext⟩
        · cases hj
  · rintro ⟨rfl, h⟩
    exact Repair.lineAt_of_getElem? (n := i + 1) (Nat.succ_pos i) h

theorem KeepsTo.refl (n : Option Int) (code : String) : KeepsTo n code code :=
  ⟨rfl, fun _ _ => rfl⟩

theorem KeepsTo.eq_of_outside (h : KeepsTo n code new)
    (hn : ∀ k, n = some k → k < 1 ∨ (lines code).length < k) : new = code := by
  have hlines : lines new = lines code := by
    apply List.ext_getElem?
    intro i
    by_cases hi : n = some (i + 1 : Int)
    · have hout := hn _ hi
      have hlen := h.length
      rw [List.getElem?_eq_none (by omega), List.getElem?_eq_none (by omega)]
    · exact h.others i hi
  rw [← unlines_lines new, hlines, unlines_lines]

theorem keepsTo_set (h : lineAt? (lines code) n = some (i, line)) (hn : Unbroken new) :
    KeepsTo n code (unlines ((lines code).set i new)) := by
  obtain ⟨rfl, -⟩ := lineAt_eq_some.mp h
  constructor
  · rw [lines_set code i hn, List.length_set]
  · intro j hj
    have hij : i ≠ j := by
      rintro rfl
      exact hj rfl
    rw [lines_set code i hn, List.getElem?_set_ne hij]

end Lines

namespace Repair
variable {code what : String} {n : Option Int}

def Tame (f : String → Option String) : Prop :=
  ∀ line new, Unbroken line → f line = some new → Unbroken new

namespace Tame
variable {f g : String → Option String} {h : String → String}

theorem none : Tame fun _ => Option.none := fun _ _ _ he => (nomatch he)

theorem some (hh : ∀ line, Unbroken line → Unbroken (h line)) :
    Tame fun line => Option.some (h line) :=
  fun line _ hl he => Option.some.inj he ▸ hh line hl

theorem changed (hh : ∀ line, Unbroken line → Unbroken (h line)) :
    Tame fun line => Mender.changed line (h line) := by
  intro line new hl he
  obtain ⟨rfl, -⟩ := changed_eq_some_iff.mp he
  exact hh line hl

theorem ite {c : String → Prop} [∀ line, Decidable (c line)] (hf : Tame f) (hg : Tame g) :
    Tame fun line => if c line then f line else g line := by
  intro line new hl he
  dsimp only at he
  split at he
  · exact hf line new hl he
  · exact hg line new hl he

end Tame

section Change
variable {note : Int → List String} {f : String → Option String} {i : Nat} {line new : String}

theorem changeLine_of_some (h : lineAt? (lines code) n = some (i, line)) (hf : f line = some new) :
    changeLine code n note f = .ofLines ((lines code).set i new) (note (i + 1)) := by
  simp only [changeLine, h, hf]

theorem changeLine_of_none (h : ∀ i line, lineAt? (lines code) n = some (i, line) → f line = none) :
    changeLine code n note f = .keep code := by
  unfold changeLine
  dsimp only
  split
  · rfl
  · rename_i i line hat
    rw [h i line hat]

private theorem changeLine_cases (code : String) (n : Option Int) (note : Int → List String)
    (f : String → Option String) : changeLine code n note f = .keep code ∨
      ∃ i line new, lineAt? (lines code) n = some (i, line) ∧ f line = some new ∧
        changeLine code n note f = .ofLines ((lines code).set i new) (note (i + 1)) := by
  by_cases h : ∀ i line, lineAt? (lines code) n = some (i, line) → f line = none
  · exact .inl (changeLine_of_none h)
  · obtain ⟨i, h⟩ := not_forall.mp h
    obtain ⟨line, h⟩ := not_forall.mp h
    obtain ⟨hat, hf⟩ := Classical.not_imp.mp h
    obtain ⟨new, hnew⟩ := Option.ne_none_iff_exists'.mp hf
    exact .inr ⟨i, line, new, hat, hnew, changeLine_of_some hat hnew⟩

theorem keepsTo_changeLine (hf : Tame f) : KeepsTo n code (changeLine code n note f).code := by
  rcases changeLine_cases code n note f with h | ⟨i, line, new, hat, hnew, h⟩
  · rw [h]
    exact .refl n code
  · rw [h]
    have hline := Unbroken.of_mem_lines (List.mem_of_getElem? (lineAt_eq_some.mp hat).2)
    exact keepsTo_set hat (hf line new hline hnew)

end Change

theorem keepsTo_repairLine {f : String → Option String} (hf : Tame f) :
    KeepsTo n code (repairLine code n what f).code := keepsTo_changeLine hf

def KeepsToLine (repair : String → Option Int → Edit) : Prop :=
  ∀ code n, KeepsTo n code (repair code n).code

section Semicolons

private theorem unbroken_withSemicolon {markers : List String} {line new : String} {comment : Bool}
    (hl : Unbroken line) (h : withSemicolon markers line = some (new, comment)) : Unbroken new := by
  unfold withSemicolon at h
  dsimp only at h
  split at h
  · cases h
  · split at h
    · split at h
      · cases h
      · obtain ⟨rfl, -⟩ := Prod.mk.inj (Option.some.inj h)
        exact ((hl.trimEnd.take _).trimEnd.append (by decide)).append (hl.trimEnd.drop _)
    · obtain ⟨rfl, -⟩ := Prod.mk.inj (Option.some.inj h)
      exact hl.trimEnd.append (by decide)

theorem tame_withSemicolon (markers : List String) :
    Tame fun line => (withSemicolon markers line).map (·.1) := by
  intro line new hl h
  obtain ⟨⟨text, comment⟩, hw, rfl⟩ := Option.map_eq_some_iff.mp h
  exact unbroken_withSemicolon hl hw

theorem semicolonBeforeBrace_code (code : String) (n : Option Int) :
    (semicolonBeforeBrace code n).code = (changeLine code n (fun _ => []) fun line =>
      (withSemicolon slashMarkers line).map (·.1)).code := by
  cases hat : lineAt? (lines code) n with
  | none => simp only [semicolonBeforeBrace, changeLine, hat]
  | some found =>
    obtain ⟨i, line⟩ := found
    cases hw : withSemicolon slashMarkers line with
    | none => simp only [semicolonBeforeBrace, changeLine, hat, hw, Option.map_none]
    | some new =>
      simp only [semicolonBeforeBrace, changeLine, hat, hw, Option.map_some]
      rfl

def semicolonRepairs : List (String → Option Int → Edit) :=
  [addSemicolon, semicolonBeforeBrace, dropSemicolon]

theorem semicolonRepairs_keep : ∀ repair ∈ semicolonRepairs, KeepsToLine repair := by
  have hadd : KeepsToLine addSemicolon :=
    fun code n => keepsTo_changeLine (tame_withSemicolon commentMarkers)
  have hbrace : KeepsToLine semicolonBeforeBrace := by
    intro code n
    rw [semicolonBeforeBrace_code]
    exact keepsTo_changeLine (tame_withSemicolon slashMarkers)
  have hdrop : KeepsToLine dropSemicolon :=
    fun code n => keepsTo_repairLine (.ite (.some fun _ hl => hl.trimEnd.take _) .none)
  simpa [semicolonRepairs] using ⟨hadd, hbrace, hdrop⟩

end Semicolons

section Brackets
variable {bracket : String}

theorem tame_withParen (hb : Unbroken bracket) : Tame (withParen bracket) := by
  intro line new hl h
  have hend (new : String) (h : (if endsWith (trimEnd line) bracket || endsWith (trimEnd line) ";"
      then none else some (trimEnd line ++ bracket)) = some new) : Unbroken new := by
    split at h
    · cases h
    · exact Option.some.inj h ▸ hl.trimEnd.append hb
  have hclean : Unbroken (cleanBrace (trimEnd line)) :=
    Pattern.unbroken_replaceAll hl.trimEnd (by decide)
  unfold withParen at h
  dsimp only at h
  split at h
  · split at h
    · rename_i closed hclosed
      obtain rfl := Option.some.inj h
      unfold closeBeforeBrace at hclosed
      split at hclosed
      · dsimp only at hclosed
        split at hclosed
        · obtain rfl := Option.some.inj hclosed
          exact (((hclean.take _).trimEnd.append (.replicate _ (by decide))).append
            (by decide)).append (hclean.drop _)
        · cases hclosed
      · cases hclosed
    · split at h
      · exact hend new h
      · exact Option.some.inj h ▸ hclean
  · exact hend new h

def bracketRepairs (bracket : String) : List (String → Option Int → Edit) :=
  [(missingParen · · bracket), missingOpenBrace, (missingBracket · · bracket), braceBeforeElse,
   parenBeforeBracket, parenBeforeBrace, (extraBracket · · bracket)]

theorem bracketRepairs_keep (hb : Unbroken bracket) :
    ∀ repair ∈ bracketRepairs bracket, KeepsToLine repair := by
  have hparen : KeepsToLine (missingParen · · bracket) :=
    fun code n => keepsTo_changeLine (tame_withParen hb)
  have hopen : KeepsToLine missingOpenBrace :=
    fun code n => keepsTo_repairLine (.ite .none (.some fun _ hl => hl.trimEnd.append (by decide)))
  have hbracket : KeepsToLine (missingBracket · · bracket) :=
    fun code n => keepsTo_repairLine (.ite .none (.some fun _ hl => hl.trimEnd.append hb))
  have helse : KeepsToLine braceBeforeElse := fun code n => keepsTo_repairLine (.changed
    fun _ hl => Pattern.unbroken_replaceBy hl fun m hm => (hm 1).append (by decide))
  have hsquare : KeepsToLine parenBeforeBracket := fun code n => keepsTo_repairLine
    (.ite (.changed fun _ hl => Pattern.unbroken_assemble hl _ fun m hm =>
      (Unbroken.append (by decide) (hm 1)).append (by decide)) .none)
  have hbrace : KeepsToLine parenBeforeBrace := by
    intro code n
    apply keepsTo_repairLine
    intro line new hl h
    have hclean : Unbroken (cleanBrace line) := Pattern.unbroken_replaceAll hl (by decide)
    exact Tame.changed (fun _ hl => Pattern.unbroken_replaceBy hl fun m hm =>
      (Unbroken.append (by decide) (hm 1)).append (by decide)) _ new hclean h
  have hextra : KeepsToLine (extraBracket · · bracket) := by
    intro code n
    apply keepsTo_repairLine
    intro line new hl h
    obtain ⟨i, -, rfl⟩ := Option.map_eq_some_iff.mp h
    exact (hl.take i).append (hl.drop (i + 1))
  simpa [bracketRepairs] using ⟨hparen, hopen, hbracket, helse, hsquare, hbrace, hextra⟩

end Brackets

section Words

theorem closeScriptString_code (code : String) (n : Option Int) :
    (closeScriptString code n).code = (changeLine code n (fun _ => []) fun line =>
      if oddQuotes '\'' line then some (trimEnd line ++ "'")
      else if oddQuotes '"' line then some (trimEnd line ++ "\"") else none).code := by
  cases hat : lineAt? (lines code) n with
  | none => simp only [closeScriptString, changeLine, hat]
  | some found =>
    obtain ⟨i, line⟩ := found
    simp only [closeScriptString, changeLine, hat]
    by_cases hs : oddQuotes '\'' line = true
    · simp only [hs, if_true, Edit.ofLines]
    · by_cases hd : oddQuotes '"' line = true
      · simp only [hs, hd, if_true, Bool.false_eq_true, if_false, Edit.ofLines]
      · simp only [hs, hd, Bool.false_eq_true, if_false]

def literalRepairs : List (String → Option Int → Edit) :=
  [closeString, closeScriptString, fillCharLiteral]

theorem literalRepairs_keep : ∀ repair ∈ literalRepairs, KeepsToLine repair := by
  have htame {c d : String → Prop} [∀ line, Decidable (c line)] [∀ line, Decidable (d line)]
      {a b : String} (ha : Unbroken a) (hb : Unbroken b) : Tame fun line =>
        if c line then some (trimEnd line ++ a) else if d line then some (trimEnd line ++ b)
        else none :=
    .ite (.some fun _ hl => hl.trimEnd.append ha)
      (.ite (.some fun _ hl => hl.trimEnd.append hb) .none)
  have hclose : KeepsToLine closeString :=
    fun code n => keepsTo_changeLine (htame (by decide) (by decide))
  have hscript : KeepsToLine closeScriptString := by
    intro code n
    rw [closeScriptString_code]
    exact keepsTo_changeLine (htame (by decide) (by decide))
  have hfill : KeepsToLine fillCharLiteral :=
    fun code n => keepsTo_repairLine (.changed fun _ hl => hl.replace _ (by decide))
  simpa [literalRepairs] using ⟨hclose, hscript, hfill⟩

def directiveRepairs : List (String → Option Int → Edit) :=
  [strayBackslash, strayHash, invalidDirective, unfinishedDirective, unreachable]

theorem directiveRepairs_keep : ∀ repair ∈ directiveRepairs, KeepsToLine repair := by
  have hcommented (line : String) (hl : Unbroken line) : Unbroken (commented line) :=
    Unbroken.append (by decide) hl.trimStart
  have hback : KeepsToLine strayBackslash := fun code n =>
    keepsTo_repairLine (.changed fun _ hl => Pattern.unbroken_replaceAll hl (by decide))
  have hhash : KeepsToLine strayHash := fun code n =>
    keepsTo_repairLine (.changed fun _ hl => Pattern.unbroken_replaceAll hl (by decide))
  have hinvalid : KeepsToLine invalidDirective := fun code n =>
    keepsTo_repairLine (.ite (.some hcommented) .none)
  have hunfinished : KeepsToLine unfinishedDirective := fun code n =>
    keepsTo_repairLine (.ite (.some fun _ hl => hl.trimEnd.take _) .none)
  have hunreachable : KeepsToLine unreachable := fun code n =>
    keepsTo_repairLine (.some hcommented)
  simpa [directiveRepairs] using ⟨hback, hhash, hinvalid, hunfinished, hunreachable⟩

def expressionRepairs : List (String → Option Int → Edit) :=
  [emptyExpression, missingComma, nameBeforeNumber]

theorem expressionRepairs_keep : ∀ repair ∈ expressionRepairs, KeepsToLine repair := by
  have hempty : KeepsToLine emptyExpression := fun code n => keepsTo_repairLine (.changed
    fun _ hl => Pattern.unbroken_replaceAll (Pattern.unbroken_replaceAll
      (Pattern.unbroken_replaceAll hl (by decide)) (by decide)) (by decide))
  have hcomma : KeepsToLine missingComma := fun code n =>
    keepsTo_repairLine (.ite .none (.some fun _ hl => hl.trimEnd.append (by decide)))
  have hname : KeepsToLine nameBeforeNumber := fun code n => keepsTo_repairLine (.changed
    fun _ hl => Pattern.unbroken_replaceBy hl fun m hm => Unbroken.append (by decide) (hm 1))
  simpa [expressionRepairs] using ⟨hempty, hcomma, hname⟩

def genericRepairs : List (String → Option Int → Edit) :=
  [addTemplate, dropTypename, friendClass]

theorem genericRepairs_keep : ∀ repair ∈ genericRepairs, KeepsToLine repair := by
  have hadd : KeepsToLine addTemplate := fun code n => keepsTo_repairLine (.changed
    fun _ hl => Pattern.unbroken_replaceBy hl fun m hm =>
      (((hm 1).append (by decide)).append (hm 2)).append (by decide))
  have hdrop : KeepsToLine dropTypename := fun code n =>
    keepsTo_repairLine (.changed fun _ hl => Pattern.unbroken_replaceAll hl (by decide))
  have hfriend : KeepsToLine friendClass := fun code n =>
    keepsTo_repairLine (.changed fun _ hl => Pattern.unbroken_replaceAll hl (by decide))
  simpa [genericRepairs] using ⟨hadd, hdrop, hfriend⟩

def methodRepairs : List (String → Option Int → Edit) := [emptyBody, voidType, dropBody]

theorem methodRepairs_keep : ∀ repair ∈ methodRepairs, KeepsToLine repair := by
  have hempty : KeepsToLine emptyBody := fun code n =>
    keepsTo_repairLine (.ite .none (.some fun _ hl => hl.trimEnd.append (by decide)))
  have hvoid : KeepsToLine voidType := fun code n => keepsTo_repairLine (.changed
    fun _ hl => Pattern.unbroken_replaceBy hl fun m hm =>
      ((((hm 1).append (hm 2)).append (by decide)).append (hm 3)).append (by decide))
  have hdrop : KeepsToLine dropBody := by
    intro code n
    refine keepsTo_repairLine (.changed fun line hl => ?_)
    split
    · exact Pattern.unbroken_replaceAll hl (by decide)
    · exact Pattern.unbroken_replaceAll hl (by decide)
  simpa [methodRepairs] using ⟨hempty, hvoid, hdrop⟩

def scriptRepairs : List (String → Option Int → Edit) :=
  [missingColon, noneComparison, boolComparison, notIn, misplacedReturn, misplacedBreak,
   misplacedContinue, assignmentInCondition, doubleEquals]

theorem scriptRepairs_keep : ∀ repair ∈ scriptRepairs, KeepsToLine repair := by
  have hcomment (what : String) : KeepsToLine (commentOut · · what) := fun code n =>
    keepsTo_repairLine (.some fun _ hl => Unbroken.append (by decide) hl.trimStart)
  have hcolon : KeepsToLine missingColon := fun code n => keepsTo_repairLine
    (.ite .none (.ite (.some fun _ hl => hl.trimEnd.append (by decide)) .none))
  have hnone : KeepsToLine noneComparison := fun code n => keepsTo_repairLine (.changed
    fun _ hl => Pattern.unbroken_replaceAll (Pattern.unbroken_replaceAll hl (by decide))
      (by decide))
  have hbool : KeepsToLine boolComparison := fun code n => keepsTo_repairLine (.changed
    fun _ hl => Pattern.unbroken_replaceAll (Pattern.unbroken_replaceAll hl (by decide))
      (by decide))
  have hin : KeepsToLine notIn := fun code n => keepsTo_repairLine (.changed
    fun _ hl => Pattern.unbroken_replaceBy hl fun m hm => (hm 1).append (by decide))
  have hassign : KeepsToLine assignmentInCondition := fun code n => keepsTo_repairLine
    (.ite (.changed fun _ hl => Pattern.unbroken_replaceBy hl fun m hm =>
      (((hm 1).append (hm 2)).append (by decide)).append (hm 3)) .none)
  have hequals : KeepsToLine doubleEquals := fun code n => keepsTo_repairLine
    (.ite (.changed fun _ hl => Pattern.unbroken_replaceBy hl fun m hm =>
      ((hm 1).append (by decide)).append (hm 2)) .none)
  simpa [scriptRepairs] using ⟨hcolon, hnone, hbool, hin, hcomment _, hcomment _, hcomment _,
    hassign, hequals⟩

end Words

section Indentation

theorem unbroken_indented {line : String} (width : Nat) (hl : Unbroken line) :
    Unbroken (indented width line) := (Unbroken.replicate width (by decide)).append hl

private theorem keepsTo_reindent (width : Option String → Option Nat) :
    KeepsTo n code (reindent code n what width).code := by
  unfold reindent
  dsimp only
  split
  · exact .refl n code
  · rename_i i line hat
    have hline := Unbroken.of_mem_lines (List.mem_of_getElem? (lineAt_eq_some.mp hat).2)
    split
    · exact .refl n code
    · exact keepsTo_set hat (unbroken_indented _ hline.trimStart)

def indentRepairs : List (String → Option Int → Edit) :=
  [adjustIndent, dropIndent, addIndent, matchIndent]

private theorem indentRepairs_keep : ∀ repair ∈ indentRepairs, KeepsToLine repair := by
  have hadjust : KeepsToLine adjustIndent := fun code n => keepsTo_reindent _
  have hdrop : KeepsToLine dropIndent := fun code n => keepsTo_reindent _
  have hadd : KeepsToLine addIndent := fun code n => keepsTo_reindent _
  have hmatch : KeepsToLine matchIndent := by
    intro code n
    unfold matchIndent
    dsimp only
    split
    · exact .refl n code
    · rename_i i line hat
      have hline := Unbroken.of_mem_lines (List.mem_of_getElem? (lineAt_eq_some.mp hat).2)
      split
      · exact .refl n code
      · exact keepsTo_set hat (unbroken_indented _ hline.trimStart)
  simpa [indentRepairs] using ⟨hadjust, hdrop, hadd, hmatch⟩

end Indentation

/-- All repairs that are told a line and work on it; some of them are also told a bracket. -/
def lineRepairs (bracket : String) : List (String → Option Int → Edit) :=
  semicolonRepairs ++ bracketRepairs bracket ++ literalRepairs ++ directiveRepairs ++
    expressionRepairs ++ genericRepairs ++ methodRepairs ++ scriptRepairs ++ indentRepairs

/-- A repair that is told a line keeps to it: the text has as many lines as before, and all others
are unchanged. Without a line number, or with one that is no line's, the text stays as it is. -/
theorem line_repairs_keep_to_line (bracket : Char) (hb : bracket ≠ '\n') :
    ∀ repair ∈ lineRepairs (String.singleton bracket), ∀ (code : String) (n : Option Int),
      (lines (repair code n).code).length = (lines code).length ∧
      (∀ i : Nat, n ≠ some (i + 1 : Int) →
        (lines (repair code n).code)[i]? = (lines code)[i]?) ∧
      ((∀ k, n = some k → k < 1 ∨ (lines code).length < k) → (repair code n).code = code) := by
  have hunbroken : Unbroken (String.singleton bracket) := by
    rw [Unbroken, String.toList_singleton, List.mem_singleton]
    exact hb.symm
  have hkeep : ∀ repair ∈ lineRepairs (String.singleton bracket), KeepsToLine repair := by
    unfold lineRepairs
    simp only [List.forall_mem_append]
    exact ⟨⟨⟨⟨⟨⟨⟨⟨semicolonRepairs_keep, bracketRepairs_keep hunbroken⟩, literalRepairs_keep⟩,
      directiveRepairs_keep⟩, expressionRepairs_keep⟩, genericRepairs_keep⟩, methodRepairs_keep⟩,
      scriptRepairs_keep⟩, indentRepairs_keep⟩
  intro repair hr code n
  have h := hkeep repair hr code n
  exact ⟨h.length, h.others, h.eq_of_outside⟩

/-- A parenthesis is closed on the second line, and the open one before it stays open. -/
theorem parenthesis_closed_on_its_line :
    (missingParen "f(x\ng(y" (some 2) (String.singleton ')')).code = "f(x\ng(y)" ∧
    (lines "f(x\ng(y)")[0]? = (lines "f(x\ng(y")[0]? ∧
    (missingParen "f(x\ng(y" (some 3) (String.singleton ')')).code = "f(x\ng(y" := by
  have hmem : (missingParen · · (String.singleton ')')) ∈ lineRepairs (String.singleton ')') := by
    simp only [lineRepairs, bracketRepairs, List.mem_append, List.mem_cons, true_or, or_true]
  have hcode : (missingParen "f(x\ng(y" (some 2) (String.singleton ')')).code = "f(x\ng(y)" := by
    decide
  have hrepair := line_repairs_keep_to_line ')' (by decide) _ hmem "f(x\ng(y"
  obtain ⟨-, hothers, -⟩ := hrepair (some 2)
  obtain ⟨-, -, houtside⟩ := hrepair (some 3)
  refine ⟨hcode, hcode ▸ hothers 0 (by decide), houtside fun k hk => ?_⟩
  obtain rfl := Option.some.inj hk
  exact .inr (by decide)

end Repair

end Mender
