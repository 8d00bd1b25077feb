import Mender.Proofs.LineRepair

/-! Which lines have their strings closed as the syntax of literals asks for. The repairs count the
quotes that no backslash precedes, of each kind by itself; a scan of the line from left to right
tells which of its quotes open and close literals. Main statement: the repairs do what the scan
says exactly where the quotes on which the count and the scan disagree are even in number. -/
namespace Mender.Repair
open Text

/-- Where a scan for literals stands: outside of them, inside of one that a quote has opened, or
there behind a backslash that protects the next character. -/
inductive LiteralScan where
  | outside
  | inside (quote : Char)
  | protecting (quote : Char)
  deriving Repr, DecidableEq

def isQuote (c : Char) : Bool := c == '"' || c == '\''

namespace LiteralScan

def step : LiteralScan → Char → LiteralScan
  | .outside, c => if isQuote c then .inside c else .outside
  | .inside q, c => if c = '\\' then .protecting q else if c = q then .outside else .inside q
  | .protecting q, _ => .inside q

def quote? : LiteralScan → Option Char
  | .outside => none
  | .inside q => some q
  | .protecting q => some q

def delimits : LiteralScan → Char → Bool
  | .outside, _ => true
  | .inside q, c => c == q
  | .protecting _, _ => false

/-- The quotes of a kind on which the scan and a count of the quotes without a backslash before them
disagree: those that delimit a literal right behind a backslash, and those without a backslash that
delimit none. The flag says whether a backslash comes before the text. -/
def misread (quote : Char) : LiteralScan → Bool → List Char → Nat
  | _, _, [] => 0
  | s, behind, c :: cs =>
    (if c = quote ∧ s.delimits c = behind then 1 else 0) +
      misread quote (s.step c) (c == '\\') cs

end LiteralScan

def unclosed? (line : String) : Option Char :=
  (line.toList.foldl LiteralScan.step .outside).quote?

def misread (quote : Char) (line : String) : Nat :=
  LiteralScan.misread quote .outside false line.toList

def unescaped (quote : Char) : Bool → List Char → Nat
  | _, [] => 0
  | behind, c :: cs =>
    (if c = quote ∧ behind = false then 1 else 0) + unescaped quote (c == '\\') cs

section Count
variable {q : Char}

theorem ne_backslash_of_isQuote (hq : isQuote q = true) : q ≠ '\\' := by
  rintro rfl
  cases hq

private theorem unescaped_of_head_ne {cs : List Char} (h : ∀ c ∈ cs.head?, c ≠ q) :
    unescaped q true cs = unescaped q false cs := by
  cases cs with
  | nil => rfl
  | cons c cs => simp [unescaped, h c rfl]

private theorem countChars_add_unescaped (hq : q ≠ '\\') (cs : List Char) :
    countChars ['\\', q] 0 cs + unescaped q false cs = cs.count q := by
  induction hn : cs.length using Nat.strongRecOn generalizing cs with
  | ind n ih =>
    subst hn
    cases cs with
    | nil => rfl
    | cons c cs =>
      by_cases hp : ['\\', q] <+: c :: cs
      · obtain ⟨r, hr⟩ := hp
        obtain ⟨rfl, rfl⟩ : '\\' = c ∧ q :: r = cs := List.cons.inj hr
        have hpair : countChars ['\\', q] 0 ('\\' :: q :: r) = 1 + countChars ['\\', q] 0 r := by
          rw [countChars, if_pos (by simp)]
          rfl
        have hskip : unescaped q false ('\\' :: q :: r) = unescaped q false r := by
          simp [unescaped, Ne.symm hq, beq_eq_false_iff_ne.mpr hq]
        have hrest := ih r.length (by rw [List.length_cons, List.length_cons]; omega) r rfl
        rw [hpair, hskip, List.count_cons_of_ne (Ne.symm hq), List.count_cons_self]
        omega
      · have hpass : countChars ['\\', q] 0 (c :: cs) = countChars ['\\', q] 0 cs := by
          rw [countChars, if_neg (by simpa [List.isPrefixOf_iff_prefix] using hp)]
        have hnext : unescaped q (c == '\\') cs = unescaped q false cs := by
          by_cases hc : c = '\\'
          · subst hc
            refine unescaped_of_head_ne fun d hd he => hp ?_
            obtain ⟨r, rfl⟩ := List.head?_eq_some_iff.mp hd
            exact ⟨r, by rw [he]; rfl⟩
          · rw [beq_eq_false_iff_ne.mpr hc]
        have hrest := ih cs.length (by simp) cs rfl
        rw [hpass, unescaped, hnext, List.count_cons]
        by_cases hc : c = q
        · simp only [hc, and_self, if_true, beq_self_eq_true]
          omega
        · simp [hc, hrest]

theorem oddQuotes_iff_unescaped (hq : isQuote q = true) (line : String) :
    oddQuotes q line = true ↔ unescaped q false line.toList % 2 = 1 := by
  have hcount := countChars_add_unescaped (ne_backslash_of_isQuote hq) line.toList
  have hexcess : excess line (String.singleton q) (String.ofList ['\\', q]) =
      (unescaped q false line.toList : Int) := by
    rw [excess, count, count, String.toList_singleton, String.toList_ofList, countChars_singleton]
    omega
  rw [oddQuotes, hexcess, beq_iff_eq]
  omega

end Count

namespace LiteralScan
variable {q c : Char}

theorem quote_step_of_ne (h : c ≠ q) (s : LiteralScan) :
    (s.step c).quote? = some q ↔ s.quote? = some q := by
  cases s with
  | outside =>
    rw [step]
    split <;> simp [quote?, h]
  | inside o =>
    rw [step]
    split
    · rfl
    · split
      · rename_i hc
        simp [quote?, ← hc, h]
      · rfl
  | protecting o => rfl

private theorem quote_step_self (hq : isQuote q = true) (s : LiteralScan) :
    (s.step q).quote? = some q ↔ (s.quote? = some q ↔ s.delimits q = false) := by
  cases s with
  | outside => simp [step, hq, quote?, delimits]
  | inside o =>
    rw [step, if_neg (ne_backslash_of_isQuote hq)]
    by_cases ho : q = o
    · simp [ho, quote?, delimits]
    · simp [ho, Ne.symm ho, quote?, delimits]
  | protecting o => simp [step, quote?, delimits]

/-- The quotes that are counted and those that are misread make up, but for an even number, what
opens and closes literals of the kind. -/
theorem quote_foldl (hq : isQuote q = true) (s : LiteralScan) (behind : Bool) (cs : List Char) :
    (cs.foldl step s).quote? = some q ↔
      (s.quote? = some q ↔ (unescaped q behind cs + misread q s behind cs) % 2 = 0) := by
  induction cs generalizing s behind with
  | nil => simp [unescaped, misread]
  | cons c cs ih =>
    rw [List.foldl_cons, ih (s.step c) (c == '\\'), unescaped, misread]
    by_cases hc : c = q
    · subst hc
      rw [quote_step_self hq]
      simp only [true_and]
      -- the quote is either counted or misread just if it delimits
      have hone : ((if behind = false then 1 else 0) + if s.delimits c = behind then 1 else 0) % 2 =
          if s.delimits c = false then 0 else 1 := by
        cases behind <;> cases s.delimits c <;> rfl
      generalize (if behind = false then 1 else 0) = counted at hone ⊢
      generalize (if s.delimits c = behind then 1 else 0) = wrong at hone ⊢
      by_cases hopen : s.quote? = some c <;> cases hd : s.delimits c <;>
        simp [hopen, hd] at hone ⊢ <;> omega
    · rw [quote_step_of_ne hc]
      simp [hc]

theorem isQuote_of_foldl {s : LiteralScan} (hs : ∀ o ∈ s.quote?, isQuote o = true)
    (cs : List Char) : ∀ o ∈ (cs.foldl step s).quote?, isQuote o = true := by
  induction cs generalizing s with
  | nil => exact hs
  | cons c cs ih =>
    refine ih fun o ho => ?_
    by_cases hc : c = o
    · subst hc
      cases s with
      | outside =>
        by_contra hno
        simp [step, hno, quote?] at ho
      | inside d =>
        rw [step] at ho
        split at ho
        · exact hs c ho
        · split at ho
          · cases ho
          · exact hs c ho
      | protecting d => exact hs c ho
    · exact hs o ((quote_step_of_ne hc s).mp ho)

end LiteralScan

/-- The text with line `i` trimmed at its end and closed with a quote, or as it is. -/
def closedBy (code : String) (i : Nat) (line : String) : Option Char → String
  | some q => unlines ((lines code).set i (trimEnd line ++ String.singleton q))
  | none => code

def putQuote? (first second : Char) (line : String) : Option Char :=
  if oddQuotes first line then some first else if oddQuotes second line then some second else none

section Closing
variable {code line : String} {i : Nat}

/-- A kind of quote counts as odd exactly if a literal of that kind is open and the misread quotes
are even, or none is and they are odd. -/
theorem oddQuotes_iff {q : Char} (hq : isQuote q = true) (line : String) :
    oddQuotes q line = true ↔ (unclosed? line = some q ↔ misread q line % 2 = 0) := by
  have hscan := LiteralScan.quote_foldl hq .outside false line.toList
  have hstart : LiteralScan.outside.quote? ≠ some q := by simp [LiteralScan.quote?]
  rw [oddQuotes_iff_unescaped hq, unclosed?, hscan, misread]
  simp only [hstart, false_iff]
  omega

theorem changeLine_putQuote (hline : (lines code)[i]? = some line) (a b : Char) :
    (changeLine code (some (i + 1)) (fun _ => []) fun line =>
      if oddQuotes a line then some (trimEnd line ++ String.singleton a)
      else if oddQuotes b line then some (trimEnd line ++ String.singleton b) else none).code =
      closedBy code i line (putQuote? a b line) := by
  have hat : lineAt? (lines code) (some (i + 1 : Int)) = some (i, line) :=
    lineAt_eq_some.mpr ⟨rfl, hline⟩
  unfold changeLine putQuote?
  simp only [hat]
  by_cases ha : oddQuotes a line = true
  · simp only [ha, if_true]
    rfl
  · by_cases hb : oddQuotes b line = true
    · simp only [ha, hb, if_true, Bool.false_eq_true, if_false]
      rfl
    · simp only [ha, hb, Bool.false_eq_true, if_false]
      rfl

theorem closeString_eq (hline : (lines code)[i]? = some line) :
    (closeString code (some (i + 1))).code = closedBy code i line (putQuote? '"' '\'' line) :=
  changeLine_putQuote hline '"' '\''

theorem closeScriptString_eq (hline : (lines code)[i]? = some line) :
    (closeScriptString code (some (i + 1))).code =
      closedBy code i line (putQuote? '\'' '"' line) := by
  rw [closeScriptString_code]
  exact changeLine_putQuote hline '\'' '"'

private theorem not_blank_of_isQuote {q : Char} (hq : isQuote q = true) : isBlank q = false := by
  simp only [isQuote, Bool.or_eq_true, beq_iff_eq] at hq
  rcases hq with rfl | rfl
  · decide
  · decide

private theorem trimEnd_append_quote_ne {q : Char} (hq : isQuote q = true) (line : String) :
    trimEnd line ++ String.singleton q ≠ line := by
  intro he
  obtain ⟨bs, hbs, hline⟩ := exists_trimEnd line
  have hlists := congrArg String.toList he
  rw [String.toList_append, String.toList_singleton, hline] at hlists
  obtain rfl : [q] = bs := List.append_cancel_left hlists
  have hblank := hbs q List.mem_cons_self
  rw [not_blank_of_isQuote hq] at hblank
  cases hblank

theorem closedBy_inj (hline : (lines code)[i]? = some line) {o p : Option Char}
    (ho : ∀ q ∈ o, isQuote q = true) (hp : ∀ q ∈ p, isQuote q = true) :
    closedBy code i line o = closedBy code i line p ↔ o = p := by
  refine ⟨fun h => ?_, fun h => congrArg _ h⟩
  have hkept {q : Char} (hq : isQuote q = true) : closedBy code i line (some q) ≠ code :=
    unlines_set_lines_ne hline (trimEnd_append_quote_ne hq line)
  cases o with
  | none =>
    cases p with
    | none => rfl
    | some q => exact absurd h.symm (hkept (hp q rfl))
  | some q =>
    cases p with
    | none => exact absurd h (hkept (ho q rfl))
    | some r =>
      have hi := (List.getElem?_eq_some_iff.mp hline).1
      have hlists := congrArg String.toList h
      rw [closedBy, closedBy, unlines_set_toList hi, unlines_set_toList hi] at hlists
      have hend := List.append_cancel_left (List.append_cancel_right hlists)
      rw [String.toList_append, String.toList_append, List.append_cancel_left_eq] at hend
      simpa using hend

theorem isQuote_of_unclosed (line : String) : ∀ q ∈ unclosed? line, isQuote q = true :=
  LiteralScan.isQuote_of_foldl (by simp [LiteralScan.quote?]) line.toList

private theorem isQuote_of_putQuote {a b : Char} (ha : isQuote a = true) (hb : isQuote b = true)
    (line : String) : ∀ q ∈ putQuote? a b line, isQuote q = true := by
  intro q hq
  unfold putQuote? at hq
  split at hq
  · exact Option.some.inj hq ▸ ha
  · split at hq
    · exact Option.some.inj hq ▸ hb
    · cases hq

/-- The quote that is looked at first has to be counted right; the other one has to be, unless a
literal of the first kind is open. -/
private theorem putQuote_eq_unclosed_iff {a b : Char}
    (hab : isQuote a = true ∧ isQuote b = true ∧ a ≠ b)
    (hall : ∀ q, isQuote q = true → q = a ∨ q = b) (line : String) :
    putQuote? a b line = unclosed? line ↔
      misread a line % 2 = 0 ∧ (unclosed? line = some a ∨ misread b line % 2 = 0) := by
  obtain ⟨ha, hb, hne⟩ := hab
  have hodda := oddQuotes_iff ha line
  have hoddb := oddQuotes_iff hb line
  have hquote := isQuote_of_unclosed line
  unfold putQuote?
  cases hopen : unclosed? line with
  | none => 
    simp only [hopen, reduceCtorEq, false_iff] at hodda hoddb
    by_cases hma : misread a line % 2 = 0 <;> by_cases hmb : misread b line % 2 = 0 <;>
      simp [hodda, hoddb, hma, hmb]
  | some q =>
    rcases hall q (hquote q hopen) with rfl | rfl
    · simp only [hopen, Option.some.injEq, true_iff, hne, false_iff] at hodda hoddb
      by_cases hma : misread q line % 2 = 0 <;> by_cases hmb : misread b line % 2 = 0 <;>
        simp [hodda, hoddb, hma, hmb, Ne.symm hne]
    · simp only [hopen, Option.some.injEq, true_iff, Ne.symm hne, false_iff] at hodda hoddb
      by_cases hma : misread a line % 2 = 0 <;> by_cases hmb : misread q line % 2 = 0 <;>
        simp [hodda, hoddb, hma, hmb, hne, Ne.symm hne]

end Closing

/-- A string is closed as the syntax of literals asks for exactly if the quotes of the kind that is
looked at first are misread an even number of times, and those of the other kind too, unless a
literal of the first kind is open. So both repairs keep to the syntax exactly on the lines whose
misread quotes are even in number for both kinds. -/
theorem string_closing_follows_syntax_iff {code line : String} {i : Nat}
    (hline : (lines code)[i]? = some line) :
    ((closeString code (some (i + 1))).code = closedBy code i line (unclosed? line) ↔
      misread '"' line % 2 = 0 ∧ (unclosed? line = some '"' ∨ misread '\'' line % 2 = 0)) ∧
    ((closeScriptString code (some (i + 1))).code = closedBy code i line (unclosed? line) ↔
      misread '\'' line % 2 = 0 ∧ (unclosed? line = some '\'' ∨ misread '"' line % 2 = 0)) ∧
    ((closeString code (some (i + 1))).code = closedBy code i line (unclosed? line) ∧
      (closeScriptString code (some (i + 1))).code = closedBy code i line (unclosed? line) ↔
      misread '"' line % 2 = 0 ∧ misread '\'' line % 2 = 0) := by
  have hquotes (q : Char) (hq : isQuote q = true) : q = '"' ∨ q = '\'' := by
    simpa [isQuote] using hq
  have hopen := isQuote_of_unclosed line
  have hdouble : (closeString code (some (i + 1))).code = closedBy code i line (unclosed? line) ↔
      misread '"' line % 2 = 0 ∧ (unclosed? line = some '"' ∨ misread '\'' line % 2 = 0) := by
    rw [closeString_eq hline, closedBy_inj hline (isQuote_of_putQuote rfl rfl line) hopen]
    exact putQuote_eq_unclosed_iff ⟨rfl, rfl, by decide⟩ hquotes line
  have hsingle : (closeScriptString code (some (i + 1))).code =
      closedBy code i line (unclosed? line) ↔
      misread '\'' line % 2 = 0 ∧ (unclosed? line = some '\'' ∨ misread '"' line % 2 = 0) := by
    rw [closeScriptString_eq hline, closedBy_inj hline (isQuote_of_putQuote rfl rfl line) hopen]
    exact putQuote_eq_unclosed_iff ⟨rfl, rfl, by decide⟩ (fun q hq => (hquotes q hq).symm) line
  refine ⟨hdouble, hsingle, ?_⟩
  rw [hdouble, hsingle]
  constructor
  · rintro ⟨⟨hd, -⟩, hs, -⟩
    exact ⟨hd, hs⟩
  · rintro ⟨hd, hs⟩
    exact ⟨⟨hd, .inr hs⟩, hs, .inr hd⟩

/-- An apostrophe in a closed string is misread, and both repairs close what is closed. -/
theorem apostrophe_closed_again :
    let code := "x = \"it's\""
    (lines code)[0]? = some code ∧ unclosed? code = none ∧ misread '\'' code = 1 ∧
      (closeString code (some 1)).code ≠ code ∧ (closeScriptString code (some 1)).code ≠ code := by
  intro code
  have hline : (lines code)[0]? = some code := by decide
  have hopen : unclosed? code = none := by decide
  have hwrong : misread '\'' code = 1 := by decide
  obtain ⟨hdouble, hsingle, -⟩ := string_closing_follows_syntax_iff hline
  rw [hopen, hwrong] at hdouble hsingle
  refine ⟨hline, hopen, hwrong, fun he => ?_, fun he => ?_⟩
  · obtain ⟨-, habs | habs⟩ := hdouble.mp he
    · cases habs
    · cases habs
  · cases (hsingle.mp he).1

end Mender.Repair
