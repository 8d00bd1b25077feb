import Mender.Proofs.LineRepair
import Mender.Proofs.PatternLines
import Mender.Proofs.Undone

/-! Which name is put in for an undeclared one, and where. The line, the undeclared name and the
suggestion are looked for one by one, each on all lines of the message, and the suggestions form
after form. What is put in is backed by the message only if one of its lines has all three. -/
namespace Mender
open Text

namespace Pattern
variable {p : Pattern} {c : CharClass} {i : Nat} {s t : Cursor}

theorem matches_text {w : String} : (text w).Matches s t ↔ s.Reads w.toList t := by
  have hliteral {c : Char} {s t : Cursor} : (char (.literal c)).Matches s t ↔ s.Reads [c] t := by
    rw [matches_char]
    simp [CharClass.holds]
  unfold text
  induction w.toList generalizing s with
  | nil =>
    constructor
    · intro h
      exact h ▸ .refl s
    · exact Cursor.Reads.eq_of_nil
  | cons c w ih =>
    cases w with
    | nil => exact hliteral
    | cons d w =>
      constructor
      · rintro ⟨u, hu, ht⟩
        exact (hliteral.mp hu).trans (ih.mp ht)
      · intro h
        obtain ⟨u, hu, ht⟩ := Cursor.Reads.split (v := [c]) h
        exact ⟨u, hliteral.mpr hu, ih.mpr ht⟩

def framed (c : CharClass) (i : Nat) (pre post : String) : Pattern :=
  spelled pre.toList (.seq (.group i (plus c)) (text post))

theorem matches_framed {pre post : String} (h : (framed c i pre post).Matches s t) :
    ∃ w, w ≠ [] ∧ (∀ x ∈ w, c.holds x = true) ∧
      s.rest = pre.toList ++ w ++ post.toList ++ t.rest ∧
      t.groups = (i, String.ofList w) :: s.groups := by
  obtain ⟨u, hu, v, ⟨x, hx, rfl⟩, ht⟩ := matches_spelled h
  obtain ⟨w, hw, hc, hne⟩ := matches_plus hx
  have hpost := matches_text.mp ht
  refine ⟨w, hne, hc, ?_, ?_⟩
  · rw [hu.rest, hw.rest, show x.rest = _ from hpost.rest]
    simp
  · rw [hpost.groups]
    simp [hw.pos, hw.rest, hw.groups, hu.groups]

theorem replaceBy_eq_self (hp : p.Moves) {f : Found → String}
    (hf : ∀ u m, p.matchAt false u = some m → f m = m.text) (text : String) :
    p.replaceBy f text = text := by
  have hsame : p.replaced f 0 [] 0 text.toList = text.toList := by
    refine replaced_induct hp (motive := fun cs out => out = cs) rfl ?_ ?_ text.toList
    · intro before pos c cs out _ ih
      rw [ih]
    · intro before pos cs m t out hm _ hcs ih
      rw [hf _ m hm, ih, ← hcs]
  rw [replaceBy_eq, hsame, String.ofList_toList]

section WholeWord
variable {w : String}

theorem matches_wholeWord (h : (wholeWord w).Matches s t) : s.Reads w.toList t := by
  obtain ⟨u, ⟨-, rfl⟩, v, hv, -, rfl⟩ := h
  exact matches_text.mp hv

theorem wholeWord_moves (hw : w ≠ "") : (wholeWord w).Moves := by
  intro s t h
  have hpos := (matches_wholeWord h).pos
  have hlen : 0 < w.toList.length := List.length_pos_iff.mpr (by simpa using hw)
  omega

theorem text_of_matchAt_wholeWord {m : Found} (h : (wholeWord w).matchAt false s = some m) :
    m.text = w := by
  obtain ⟨t, v, ht, hv, hm, -⟩ := matchAt_eq_some h
  have hsame : v = w.toList :=
    List.append_cancel_right (hv.rest.symm.trans (matches_wholeWord ht).rest)
  rw [← String.toList_inj, hm, hsame]

theorem replaceAll_wholeWord (hw : w ≠ "") (hc : ∀ c ∈ w.toList, isWord c = true) (new : String) :
    (wholeWord w).replaceAll new w = new := by
  have hne : w.toList ≠ [] := by simpa using hw
  have hmatch : ∃ t, (wholeWord w).Matches ⟨[], w.toList, 0, []⟩ t := by
    obtain ⟨t, ht, hrest⟩ := Cursor.exists_reads (s := ⟨[], w.toList, 0, []⟩) (w := w.toList) (r := [])
      (by simp)
    refine ⟨t, _, ⟨?_, rfl⟩, t, ?_, ?_, rfl⟩
    · obtain ⟨c, cs, hcs⟩ := List.exists_cons_of_ne_nil hne
      simp [Anchor.holds, hcs, wordAt, hc c (by simp [hcs])]
    · exact matches_text.mpr ht
    · obtain ⟨cs, c, hcs⟩ := List.eq_nil_or_concat w.toList |>.resolve_left hne
      have hbefore := ht.before
      rw [hcs, List.concat_eq_append] at hbefore
      simp [Anchor.holds, hbefore, hrest, wordAt, hc c (by simp [hcs])]
  obtain ⟨m, hm⟩ := Option.isSome_iff_exists.mp (matchAt_isSome.mpr hmatch)
  obtain ⟨t, -, hcs, he⟩ := replaced_of_matches (wholeWord_moves hw) (f := fun _ => new) hm
  have hrest : t.rest = [] := by
    rw [text_of_matchAt_wholeWord hm] at hcs
    simpa using hcs
  rw [replaceAll, replaceBy_eq, he, hrest, replaced_nil (wholeWord_moves hw)]
  simp

end WholeWord

def capture? (p : Pattern) (text : String) : Option String := (p.search text).map (·.group 1)

theorem search_lines {β : Type} (hp : p.staysOnLine = true) (hm : p.Moves)
    (f : List (Nat × String) → β) (text : String) : (p.search text).map (fun m => f m.groups) =
      (lines text).findSome? fun l => (p.search l).map fun m => f m.groups := by
  have hfirst := search_unlines hp hm (lines_ne_nil text)
  rw [unlines_lines] at hfirst
  have hmap (x : Option Found) : x.map (fun m => f m.groups) = (x.map Found.groups).map f := by
    cases x <;> rfl
  simp only [hmap, hfirst]
  induction lines text with
  | nil => rfl
  | cons l ls ih =>
    rw [List.findSome?_cons, List.findSome?_cons]
    cases p.search l with
    | none => exact ih
    | some m => rfl

end Pattern

namespace Diagnostic
open Pattern

def messageForms : List Pattern := colonNumber :: wordNumber :: undeclaredForms :: suggestionForms

theorem messageForms_on_line {p : Pattern} (h : p ∈ messageForms) :
    p.staysOnLine = true ∧ p.Moves := by
  have hall : ∀ p ∈ messageForms, p.staysOnLine = true ∧ p.coversSome = true := by decide +kernel
  exact ⟨(hall p h).1, moves_of_coversSome (hall p h).2⟩

section Message
variable {message line : String}

theorem capture_lines {p : Pattern} (h : p ∈ messageForms) (message : String) :
    p.capture? message = (lines message).findSome? p.capture? :=
  search_lines (messageForms_on_line h).1 (messageForms_on_line h).2
    (fun gs => (gs.lookup 1).getD "") message

theorem undeclared_lines (message : String) :
    undeclared? message = (lines message).findSome? undeclared? :=
  have h := messageForms_on_line (p := undeclaredForms) (.tail _ (.tail _ (.head _)))
  search_lines h.1 h.2 (fun gs => (gs.lookup 1).getD "" ++ (gs.lookup 2).getD "" ++
    (gs.lookup 3).getD "") message

/-- The digits of the place that lines point to: the first number between colons, and without any
the first one after the word `line`. -/
def placeDigits? (ls : List String) : Option String :=
  (ls.findSome? colonNumber.capture?).or (ls.findSome? wordNumber.capture?)

theorem lineNumber_eq (message : String) : lineNumber message =
    (placeDigits? (lines message)).elim (.ok none) fun digits => (readNumber digits).map some := by
  rw [placeDigits?, ← capture_lines (.head _), ← capture_lines (.tail _ (.head _))]
  unfold lineNumber capture?
  cases colonNumber.search message with
  | some m => rfl
  | none => cases wordNumber.search message <;> rfl

/-- The first suggestion of lines: the first one of the first form that any of them has. -/
def hint? (ls : List String) : Option String :=
  suggestionForms.findSome? fun p => ls.findSome? p.capture?

theorem mem_messageForms {p : Pattern} (h : p ∈ suggestionForms) : p ∈ messageForms :=
  .tail _ (.tail _ (.tail _ h))

theorem head_suggestions (message : String) : (suggestions message).head? = hint? (lines message) := by
  have hform {p : Pattern} (h : p ∈ suggestionForms) :
      ((p.findAll message).map (·.group 1)).head? = (lines message).findSome? p.capture? := by
    rw [List.head?_map, head_findAll (messageForms_on_line (mem_messageForms h)).2]
    exact capture_lines (mem_messageForms h) message
  rw [suggestions, List.head?_flatMap, hint?]
  generalize suggestionForms = forms at hform ⊢
  induction forms with
  | nil => rfl
  | cons p forms ih =>
    rw [List.findSome?_cons, List.findSome?_cons, hform List.mem_cons_self,
      ih fun h => hform (List.mem_cons_of_mem p h)]

def PointsTo (line : String) (n : Nat) : Prop :=
  ∃ ds, ds ≠ [] ∧ (∀ d ∈ ds, isDecimal d = true) ∧ digitsValue ds = n ∧
    ':' :: ds ++ [':'] <:+: line.toList

def blames : List (String × String) :=
  [("'", "' was not declared"), ("'", "' undeclared"), ("use of undeclared identifier '", "'")]

def Blames (line w : String) : Prop :=
  ∃ form ∈ blames, (form.1 ++ w ++ form.2).toList <:+: line.toList

instance (line w : String) : Decidable (Blames line w) :=
  inferInstanceAs (Decidable (∃ form ∈ blames, (form.1 ++ w ++ form.2).toList <:+: line.toList))

theorem pointsTo_of_capture {digits : String} {n : Nat} (h : colonNumber.capture? line = some digits)
    (hn : readNumber digits = .ok n) : PointsTo line n := by
  obtain ⟨m, hm, rfl⟩ := Option.map_eq_some_iff.mp h
  obtain ⟨pre, u, t, hs, hu, ht, hg⟩ := search_eq_some hm
  rw [show colonNumber = framed .digit 1 ":" ":" by decide +kernel] at ht
  obtain ⟨ds, hne, hd, hrest, hgroups⟩ := matches_framed ht
  have hdigits : m.group 1 = String.ofList ds := by
    simp [Found.group, Found.group?, hg, hgroups]
  rw [hdigits, readNumber] at hn
  split at hn
  · refine ⟨ds, hne, hd, ?_, pre, t.rest, ?_⟩
    · have hvalue := Int.ofNat_inj.mp (Except.ok.inj hn)
      rwa [String.toList_ofList] at hvalue
    · rw [hs, hrest]
      simp
  · cases hn

private theorem undeclaredForms_eq : undeclaredForms = .alt
    (framed .word 1 "'" "' was not declared") (.alt (framed .word 2 "'" "' undeclared")
      (framed .word 3 "use of undeclared identifier '" "'")) := by
  decide +kernel

theorem undeclared_spec {w : String} (h : undeclared? line = some w) :
    w ≠ "" ∧ (∀ c ∈ w.toList, isWord c = true) ∧ Blames line w := by
  obtain ⟨m, hm, rfl⟩ := Option.map_eq_some_iff.mp h
  obtain ⟨pre, u, t, hs, hu, ht, hg⟩ := search_eq_some hm
  have hform {i : Nat} {before behind : String} (ht : (framed .word i before behind).Matches u t)
      (hf : (before, behind) ∈ blames) (hi : ∀ w, Found.group ⟨0, "", [(i, w)]⟩ 1 ++
        Found.group ⟨0, "", [(i, w)]⟩ 2 ++ Found.group ⟨0, "", [(i, w)]⟩ 3 = w) :
      m.group 1 ++ m.group 2 ++ m.group 3 ≠ "" ∧
        (∀ c ∈ (m.group 1 ++ m.group 2 ++ m.group 3).toList, isWord c = true) ∧
        Blames line (m.group 1 ++ m.group 2 ++ m.group 3) := by
    obtain ⟨w, hne, hw, hrest, hgroups⟩ := matches_framed ht
    have hname : m.group 1 ++ m.group 2 ++ m.group 3 = String.ofList w := by
      rw [hgroups, hu] at hg
      simp only [Found.group, Found.group?, hg]
      exact hi _
    rw [hname, String.toList_ofList]
    refine ⟨?_, hw, _, hf, pre, t.rest, ?_⟩
    · simpa [← String.toList_inj] using hne
    · rw [hs, hrest]
      simp
  rw [undeclaredForms_eq] at ht
  rcases ht with ht | ht | ht
  · exact hform ht (.head _) fun w => by simp [Found.group, Found.group?, List.lookup_cons]
  · exact hform ht (.tail _ (.head _)) fun w => by simp [Found.group, Found.group?, List.lookup_cons]
  · refine hform ht (.tail _ (.tail _ (.head _))) fun w => ?_
    simp [Found.group, Found.group?, List.lookup_cons]

theorem mem_suggestions_of_capture {p : Pattern} {s : String} (hp : p ∈ suggestionForms)
    (h : p.capture? line = some s) : s ∈ suggestions line := by
  obtain ⟨m, hm, rfl⟩ := Option.map_eq_some_iff.mp h
  rw [← head_findAll (messageForms_on_line (mem_messageForms hp)).2] at hm
  exact List.mem_flatMap.mpr ⟨p, hp, List.mem_map.mpr ⟨m, List.mem_of_head? hm, rfl⟩⟩

end Message

/-- The line, the name and the suggestion that are taken from a message: each is the first on the
lines of the message, whatever the others are. -/
structure Picks (message : String) (n : Nat) (w s : String) : Prop where
  place : ∃ digits, placeDigits? (lines message) = some digits ∧ readNumber digits = .ok n
  name : (lines message).findSome? undeclared? = some w
  hint : hint? (lines message) = some s
  counted : n ≠ 0
  differs : w ≠ s

/-- One line of a message points to a line, reports a name and suggests another. -/
def Backed (message : String) (n : Nat) (w s : String) : Prop :=
  ∃ line ∈ lines message, PointsTo line n ∧ Blames line w ∧ s ∈ suggestions line

def suggestionNote (n : Nat) (w s : String) : String := s!"  [SUGGESTION] 替换 '{w}' -> '{s}': 第 {n} 行"

/-- The name `w` is replaced by `s` on line `n`, and a note says so. -/
def Replaces (code message : String) (n : Nat) (w s : String) : Prop :=
  ∃ line, (lines code)[n - 1]? = some line ∧
    applySuggestion code message (suggestions message) =
      .ok { code := unlines ((lines code).set (n - 1) ((wholeWord w).replaceAll s line))
            notes := [suggestionNote n w s]
            applied := true }

section Note
variable {n k : Nat} {w s x y : String}

private theorem suggestionNote_toList (n : Nat) (w s : String) : (suggestionNote n w s).toList =
    "  [SUGGESTION] 替换 ".toList ++ '\'' :: (w.toList ++ '\'' :: (" -> ".toList ++ '\'' ::
      (s.toList ++ '\'' :: (": 第 ".toList ++ Nat.toDigits 10 n ++ " 行".toList)))) := by
  have hdigits : (toString n).toList = Nat.toDigits 10 n := String.toList_ofList
  have hstart : "  [SUGGESTION] 替换 '".toList = "  [SUGGESTION] 替换 ".toList ++ ['\''] := by decide
  have harrow : "' -> '".toList = '\'' :: " -> ".toList ++ ['\''] := by decide
  have hplace : "': 第 ".toList = '\'' :: ": 第 ".toList := by decide
  change ("  [SUGGESTION] 替换 '" ++ w ++ "' -> '" ++ s ++ "': 第 " ++ toString n ++ " 行").toList = _
  simp only [String.toList_append, hdigits, hstart, harrow, hplace, List.append_assoc,
    List.cons_append, List.nil_append]

theorem suggestionNote_inj (hx : '\'' ∉ x.toList) (hy : '\'' ∉ y.toList)
    (h : suggestionNote n w s = suggestionNote k x y) : n = k ∧ w = x ∧ s = y := by
  have hstart : '\'' ∉ "  [SUGGESTION] 替换 ".toList := by decide
  have harrow : '\'' ∉ " -> ".toList := by decide
  have hplace (n : Nat) : '\'' ∉ ": 第 ".toList ++ Nat.toDigits 10 n ++ " 行".toList := by
    rw [List.mem_append, List.mem_append, not_or, not_or]
    exact ⟨⟨by decide, fun hd => absurd (isDecimal_toDigits n _ hd) (by decide)⟩, by decide⟩
  -- the second note has five pieces between quotes, so the words of the first have no quote either
  have hpieces := congrArg (fun note => splitChars '\'' note.toList) h
  simp only [suggestionNote_toList, splitChars_append, splitChars_of_not_mem hstart,
    splitChars_of_not_mem harrow, splitChars_of_not_mem (hplace _), splitChars_of_not_mem hx,
    splitChars_of_not_mem hy] at hpieces
  have hlength := congrArg List.length hpieces
  simp only [List.length_append, List.length_singleton] at hlength
  have hw := List.length_pos_iff.mpr (intercalate_splitChars '\'' w.toList).1
  have hs := List.length_pos_iff.mpr (intercalate_splitChars '\'' s.toList).1
  rw [splitChars_eq_singleton (v := w.toList) (by omega),
    splitChars_eq_singleton (v := s.toList) (by omega)] at hpieces
  simp only [List.singleton_append, List.cons.injEq, true_and, and_true] at hpieces
  obtain ⟨hwx, hsy, hn⟩ := hpieces
  refine ⟨?_, String.toList_inj.mp hwx, String.toList_inj.mp hsy⟩
  have hdigits := List.append_cancel_left (List.append_cancel_right hn)
  rw [← digitsValue_toDigits n, hdigits, digitsValue_toDigits]

end Note

private theorem expand_plain (name : String) (m : Found) : expand
    (name.toList.map .char) m = name := by
  have hjoin (cs : List Char) : (String.join (cs.map String.singleton)).toList = cs := by
    induction cs with
    | nil => rfl
    | cons c cs ih => simp [String.join_cons, ih]
  rw [← String.toList_inj, expand, List.map_map]
  exact hjoin name.toList

theorem replaceBy_plain (p : Pattern) (name line : String) :
    p.replaceBy (expand (name.toList.map .char)) line = p.replaceAll name line :=
  congrArg (p.replaceBy · line) (funext (expand_plain name))

section Applied
variable {code message w s : String} {n : Nat}

theorem lineNumber_eq_some : lineNumber message = .ok (some (n : Int)) ↔
    ∃ digits, placeDigits? (lines message) = some digits ∧ readNumber digits = .ok n := by
  rw [lineNumber_eq]
  cases placeDigits? (lines message) with
  | none => simp
  | some digits =>
    simp only [Option.elim_some, Option.some.injEq, exists_eq_left']
    cases readNumber digits with
    | ok k => simp [Except.map]
    | error e => simp [Except.map]

theorem picks_of_applied {a : Attempt}
    (h : applySuggestion code message (suggestions message) = .ok a) (ha : a.applied = true) :
    ∃ n w s, Picks message n w s ∧ ∃ line, (lines code)[n - 1]? = some line ∧
      a = { code := unlines ((lines code).set (n - 1) ((wholeWord w).replaceAll s line))
            notes := [suggestionNote n w s]
            applied := true } := by
  cases hs : suggestions message with
  | nil =>
    rw [hs] at h
    cases h
    cases ha
  | cons name names =>
    have hname : name ∈ suggestions message := hs ▸ List.mem_cons_self
    have hhint : hint? (lines message) = some name := by rw [← head_suggestions, hs]; rfl
    rw [hs] at h
    obtain ⟨place, hplace, h⟩ := bind_eq_ok.mp h
    split at h
    · cases h
      cases ha
    · rename_i wrong hwrong
      dsimp only at h
      split at h
      · cases h
        cases ha
      · rename_i i line hline
        obtain ⟨rfl, hat⟩ := lineAt_eq_some.mp hline
        rw [readTemplate_suggestion hname] at h
        dsimp only at h
        rw [replaceBy_plain] at h
        split at h
        · cases h
          cases ha
        · rename_i new hnew
          obtain ⟨rfl, hne⟩ := changed_eq_some_iff.mp hnew
          have hblamed := (undeclared_lines message).symm.trans hwrong
          refine ⟨i + 1, wrong, name, ⟨?_, hblamed, hhint, Nat.succ_ne_zero i, ?_⟩, line, hat, ?_⟩
          · exact lineNumber_eq_some.mp hplace
          · rintro rfl
            have hmoves := wholeWord_moves (undeclared_spec hwrong).1
            exact hne (replaceBy_eq_self hmoves (fun _ _ hm => (text_of_matchAt_wholeWord hm).symm) line)
          · cases h
            rfl

namespace Picks

theorem mem_suggestions (h : Picks message n w s) : s ∈ suggestions message :=
  List.mem_of_head? ((head_suggestions message).trans h.hint)

theorem word (h : Picks message n w s) : w ≠ "" ∧ ∀ c ∈ w.toList, isWord c = true :=
  have hw := undeclared_spec ((undeclared_lines message).trans h.name)
  ⟨hw.1, hw.2.1⟩

private theorem replaces {line : String} (h : Picks message n w s)
    (hline : (lines code)[n - 1]? = some line)
    (hne : (wholeWord w).replaceAll s line ≠ line) : Replaces code message n w s := by
  obtain ⟨i, rfl⟩ := Nat.exists_eq_succ_of_ne_zero h.counted
  have hs := (head_suggestions message).trans h.hint
  obtain ⟨names, hnames⟩ := List.head?_eq_some_iff.mp hs
  have hplace : lineNumber message = .ok (some ((i + 1 : Nat) : Int)) := lineNumber_eq_some.mpr h.place
  have hat : lineAt? (lines code) (some ((i + 1 : Nat) : Int)) = some (i, line) :=
    lineAt_eq_some.mpr ⟨rfl, hline⟩
  refine ⟨line, hline, ?_⟩
  unfold applySuggestion
  rw [hnames, hplace]
  dsimp only [bind, Except.bind]
  rw [(undeclared_lines message).trans h.name]
  dsimp only
  rw [hat]
  dsimp only
  rw [readTemplate_suggestion h.mem_suggestions]
  dsimp only
  rw [replaceBy_plain, changed_eq_some_iff.mpr ⟨rfl, hne⟩]
  rfl

/-- What is picked is put in for some code: the name alone, on as many lines as the place needs. -/
theorem exists_replaces (h : Picks message n w s) : ∃ code, Replaces code message n w s := by
  have hpos : n - 1 < n := Nat.sub_one_lt h.counted
  have hbroken : isWord '\n' = false := by decide +kernel
  have hlines : lines (unlines (List.replicate n w)) = List.replicate n w := by
    refine lines_unlines (by simpa using h.counted) ?_
    intro row hrow hc
    rw [List.eq_of_mem_replicate hrow] at hc
    exact Bool.false_ne_true (hbroken.symm.trans (h.word.2 _ hc))
  have hline : (lines (unlines (List.replicate n w)))[n - 1]? = some w := by
    rw [hlines, List.getElem?_replicate_of_lt hpos]
  refine ⟨unlines (List.replicate n w), h.replaces hline ?_⟩
  rw [replaceAll_wholeWord h.word.1 h.word.2]
  exact h.differs.symm

end Picks

theorem picks_of_replaces (h : Replaces code message n w s) : Picks message n w s := by
  obtain ⟨line, hline, ha⟩ := h
  obtain ⟨k, x, y, hp, _, -, he⟩ := picks_of_applied ha rfl
  have hquote : isWord '\'' = false := by decide +kernel
  have hword {v : String} (hv : ∀ c ∈ v.toList, isWord c = true) : '\'' ∉ v.toList :=
    fun hc => Bool.false_ne_true (hquote.symm.trans (hv _ hc))
  have hnote : suggestionNote n w s = suggestionNote k x y :=
    List.singleton_inj.mp (congrArg (·.notes) he)
  obtain ⟨rfl, rfl, rfl⟩ :=
    suggestionNote_inj (hword hp.word.2) (hword (word_of_suggestion hp.mem_suggestions)) hnote
  exact hp

/-- A line without a place between colons, a report of an undeclared name or a suggestion. -/
def Silent (line : String) : Prop :=
  colonNumber.capture? line = none ∧ undeclared? line = none ∧ suggestions line = []

instance : DecidablePred Silent := fun line => inferInstanceAs
  (Decidable (colonNumber.capture? line = none ∧ undeclared? line = none ∧ suggestions line = []))

private theorem capture_of_silent {p : Pattern} {line : String} (hp : p ∈ suggestionForms)
    (h : suggestions line = []) : p.capture? line = none :=
  Option.eq_none_iff_forall_ne_some.mpr fun _ hs =>
    List.not_mem_nil (h ▸ mem_suggestions_of_capture hp hs)

private theorem Picks.backed {line : String} (h : Picks message n w s) (hl : line ∈ lines message)
    (hsilent : ∀ l ∈ lines message, l ≠ line → Silent l) (hplace : colonNumber.capture? line ≠ none) :
    Backed message n w s := by
  have honly {f : String → Option String} {x : String} (hf : ∀ l, Silent l → f l = none)
      (hx : (lines message).findSome? f = some x) : f line = some x := by
    obtain ⟨l, hmem, hfl⟩ := List.exists_of_findSome?_eq_some hx
    by_cases he : l = line
    · rwa [he] at hfl
    · rw [hf l (hsilent l hmem he)] at hfl
      cases hfl
  refine ⟨line, hl, ?_, ?_, ?_⟩
  · obtain ⟨digits, hd, hn⟩ := h.place
    obtain ⟨place, hp⟩ := Option.ne_none_iff_exists'.mp hplace
    obtain ⟨found, hfound⟩ := Option.isSome_iff_exists.mp
      (List.findSome?_isSome_iff.mpr ⟨line, hl, Option.isSome_iff_exists.mpr ⟨place, hp⟩⟩)
    rw [placeDigits?, hfound, Option.some_or] at hd
    exact pointsTo_of_capture (honly (fun _ hs => hs.1) (hfound.trans hd)) hn
  · exact (undeclared_spec (honly (fun _ hs => hs.2.1) h.name)).2.2
  · obtain ⟨p, hp, hs⟩ := List.exists_of_findSome?_eq_some h.hint
    exact mem_suggestions_of_capture hp (honly (fun _ hl => capture_of_silent hp hl.2.2) hs)

end Applied

/-- Whatever is put in replaces a name on a line; it is backed by the message on all codes just if
what is picked from the message is, and a message of one diagnostic backs it. -/
theorem suggestions_applied_where_made_iff (message : String) :
    (∀ code a, applySuggestion code message (suggestions message) = .ok a → a.applied = true →
      ∃ n w s, Replaces code message n w s) ∧
    ((∀ code n w s, Replaces code message n w s → Backed message n w s) ↔
      ∀ n w s, Picks message n w s → Backed message n w s) ∧
    (∀ line ∈ lines message, (∀ l ∈ lines message, l ≠ line → Silent l) →
      colonNumber.capture? line ≠ none →
      ∀ code n w s, Replaces code message n w s → Backed message n w s) := by
  refine ⟨?_, ⟨?_, ?_⟩, ?_⟩
  · intro code a h ha
    obtain ⟨n, w, s, -, line, hline, rfl⟩ := picks_of_applied h ha
    exact ⟨n, w, s, line, hline, h⟩
  · intro h n w s hp
    obtain ⟨code, hr⟩ := hp.exists_replaces
    exact h code n w s hr
  · intro h code n w s hr
    exact h n w s (picks_of_replaces hr)
  · intro line hl hsilent hplace code n w s hr
    exact (picks_of_replaces hr).backed hl hsilent hplace

/-- The suggestion that the second line makes for its name is put in for the name of the first. The
second line alone backs what is put in. -/
theorem suggestion_of_other_line :
    let second := "a.c:2:1: error: 'bar' undeclared; did you mean 'baz'?"
    let message := "a.c:1:1: error: 'foo' undeclared\n" ++ second
    Replaces "foo;\nbar;" message 1 "foo" "baz" ∧ ¬ Backed message 1 "foo" "baz" ∧
      ¬ (∀ n w s, Picks message n w s → Backed message n w s) ∧
      Replaces "foo;\nbar;" second 2 "bar" "baz" ∧ Backed second 2 "bar" "baz" := by
  intro second message
  have hmade : Replaces "foo;\nbar;" message 1 "foo" "baz" := ⟨"foo;", by decide +kernel⟩
  have hunbacked : ∀ line ∈ lines message, Blames line "foo" → "baz" ∉ suggestions line := by
    decide +kernel
  have hnot : ¬ Backed message 1 "foo" "baz" := by
    rintro ⟨line, hl, -, hw, hs⟩
    exact hunbacked line hl hw hs
  have halone : Replaces "foo;\nbar;" second 2 "bar" "baz" := ⟨"bar;", by decide +kernel⟩
  have hsecond : second ∈ lines second ∧ (∀ l ∈ lines second, l ≠ second → Silent l) ∧
      colonNumber.capture? second ≠ none := by
    decide +kernel
  obtain ⟨-, hiff, -⟩ := suggestions_applied_where_made_iff message
  obtain ⟨-, -, hback⟩ := suggestions_applied_where_made_iff second
  exact ⟨hmade, hnot, fun h => hnot (hiff.mpr h _ _ _ _ hmade), halone,
    hback second hsecond.1 hsecond.2.1 hsecond.2.2 _ _ _ _ halone⟩

end Diagnostic

end Mender
