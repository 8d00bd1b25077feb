import Mender.Project.Dependency
import Mender.Proofs.Capture
import Mender.Proofs.Noticed
import Mender.Proofs.PatternLines
import Mender.Proofs.Place
import Mender.Proofs.RelativeImport

/-! Which modules a script is taken to depend on. The reading of imports goes from line to line: a
line that begins with a keyword names the word behind it, and a keyword that stands alone waits for
the next line with a word at its start. Main statement: of a list of modules behind `import` only
the first is read, so another one is a dependency just if it is read in a line above or below. -/
namespace Mender.Dependency
open Text Pattern Review

def stripped? (w cs : List Char) : Option (List Char) :=
  if w.isPrefixOf cs && (cs.drop w.length).head?.all isBlank then
    some ((cs.drop w.length).dropWhile isBlank)
  else none

def opened? (cs : List Char) : Option (List Char) :=
  (stripped? "from".toList (cs.dropWhile isBlank)).or
    (stripped? "import".toList (cs.dropWhile isBlank))

def isOpening (cs : List Char) : Bool := (opened? cs).any (·.head?.any isWord)

/-- The text of a line where a module is sought. A keyword that waits takes the word at the start of
the line, even if that is a keyword. -/
def sought? (waits : Bool) (line : String) : Option (List Char) :=
  if waits && (line.toList.dropWhile isBlank).head?.any isWord then
    some (line.toList.dropWhile isBlank)
  else opened? line.toList

def firstWord (cs : List Char) : String := String.ofList (cs.takeWhile isWord)

/-- One line: whether a keyword waits behind it, and the module that is read in it. -/
def readLine (waits : Bool) (line : String) : Bool × Option String :=
  if line.toList.all isBlank then (waits, none)
  else match sought? waits line with
    | none => (false, none)
    | some t => (t.isEmpty, if firstWord t = "" then none else some (firstWord t))

/-- Lines one after the other: whether a keyword waits behind them, and the modules read in them. -/
def readLines : Bool → List String → Bool × List String
  | waits, [] => (waits, [])
  | waits, line :: ls =>
    let here := readLine waits line
    let rest := readLines here.1 ls
    (rest.1, here.2.toList ++ rest.2)

theorem readLines_append (waits : Bool) (xs ys : List String) :
    readLines waits (xs ++ ys) = ((readLines (readLines waits xs).1 ys).1,
      (readLines waits xs).2 ++ (readLines (readLines waits xs).1 ys).2) := by
  induction xs generalizing waits with
  | nil => rfl
  | cons line xs ih => simp [readLines, ih]

section Opened
variable {w cs t : List Char}

private theorem not_blank_dropWhile (cs : List Char) :
    ∀ c ∈ (cs.dropWhile isBlank).head?, isBlank c = false := by
  intro c hc
  simpa [Option.mem_def.mp hc] using List.head?_dropWhile_not isBlank cs

theorem opened_append {b : List Char} (hb : ∀ c ∈ b, isBlank c = true) (cs : List Char) :
    opened? (b ++ cs) = opened? cs := by
  rw [opened?, List.dropWhile_append_of_pos hb]
  rfl

private theorem exists_of_stripped (h : stripped? w cs = some t) : ∃ g, cs = w ++ (g ++ t) ∧
    (∀ c ∈ g, isBlank c = true) ∧ (t ≠ [] → g ≠ []) ∧ ∀ c ∈ t.head?, isBlank c = false := by
  unfold stripped? at h
  split at h
  · rename_i hw
    obtain rfl := Option.some.inj h
    rw [Bool.and_eq_true, List.isPrefixOf_iff_prefix] at hw
    obtain ⟨⟨r, rfl⟩, hr⟩ := hw
    rw [List.drop_left] at hr ⊢
    refine ⟨r.takeWhile isBlank, by rw [List.takeWhile_append_dropWhile], ?_, ?_,
      not_blank_dropWhile r⟩
    · exact fun c hc => List.all_eq_true.mp List.all_takeWhile c hc
    · cases r with
      | nil => simp
      | cons c r => simp_all
  · cases h

private theorem stripped_eq {g : List Char} (hcs : cs = w ++ (g ++ t))
    (hg : ∀ c ∈ g, isBlank c = true)
    (hne : g ≠ []) (ht : ∀ c ∈ t.head?, isBlank c = false) : stripped? w cs = some t := by
  obtain ⟨c, g, rfl⟩ := List.exists_cons_of_ne_nil hne
  subst hcs
  have hdrop : (c :: g ++ t).dropWhile isBlank = t := by
    rw [List.dropWhile_append_of_pos hg]
    cases t with
    | nil => rfl
    | cons d t => simp [ht d rfl]
  rw [stripped?, List.drop_left, if_pos, hdrop]
  simp [hg c List.mem_cons_self]

def IsKeyword (w : List Char) : Prop := w = "from".toList ∨ w = "import".toList

theorem exists_of_opened (h : opened? cs = some t) : ∃ b w g, IsKeyword w ∧
    cs = b ++ (w ++ (g ++ t)) ∧ (∀ c ∈ b, isBlank c = true) ∧ (∀ c ∈ g, isBlank c = true) ∧
    (t ≠ [] → g ≠ []) ∧ ∀ c ∈ t.head?, isBlank c = false := by
  have hsplit {w : List Char} (hw : IsKeyword w) (h : stripped? w (cs.dropWhile isBlank) = some t) :
      ∃ b w g, IsKeyword w ∧ cs = b ++ (w ++ (g ++ t)) ∧ (∀ c ∈ b, isBlank c = true) ∧
        (∀ c ∈ g, isBlank c = true) ∧ (t ≠ [] → g ≠ []) ∧ ∀ c ∈ t.head?, isBlank c = false := by
    obtain ⟨g, hcs, hg, hne, ht⟩ := exists_of_stripped h
    refine ⟨cs.takeWhile isBlank, w, g, hw, ?_, ?_, hg, hne, ht⟩
    · rw [← hcs, List.takeWhile_append_dropWhile]
    · exact fun c hc => List.all_eq_true.mp List.all_takeWhile c hc
  rcases Option.or_eq_some_iff.mp h with hfrom | ⟨-, himport⟩
  · exact hsplit (.inl rfl) hfrom
  · exact hsplit (.inr rfl) himport

theorem not_mem_of_opened {c : Char} (h : opened? cs = some t) (hc : c ∉ cs) : c ∉ t := by
  obtain ⟨b, w, g, -, rfl, -⟩ := exists_of_opened h
  simp_all

theorem opened_eq {b g : List Char} (hcs : cs = b ++ (w ++ (g ++ t))) (hw : IsKeyword w)
    (hb : ∀ c ∈ b, isBlank c = true) (hg : ∀ c ∈ g, isBlank c = true) (hne : g ≠ [])
    (ht : ∀ c ∈ t.head?, isBlank c = false) : opened? cs = some t := by
  rw [hcs, opened_append hb, opened?]
  rcases hw with rfl | rfl
  · have hdrop : ("from".toList ++ (g ++ t)).dropWhile isBlank = "from".toList ++ (g ++ t) := by
      simp [show isBlank 'f' = false by decide]
    rw [hdrop, stripped_eq rfl hg hne ht]
    rfl
  · have hdrop : ("import".toList ++ (g ++ t)).dropWhile isBlank = "import".toList ++ (g ++ t) := by
      simp [show isBlank 'i' = false by decide]
    have hother : stripped? "from".toList ("import".toList ++ (g ++ t)) = none := by
      simp [stripped?]
    rw [hdrop, hother, stripped_eq rfl hg hne ht]
    rfl

end Opened

section Pattern

def moduleBehind (i : Nat) (w : List Char) : Pattern :=
  spelled w (.seq (plus .blank) (.group i (plus .word)))

theorem scriptImport_eq : scriptImport = .seq (.anchor .lineStart) (.seq (.many true (.char .blank))
    (.alt (moduleBehind 1 "from".toList) (moduleBehind 2 "import".toList))) := by decide +kernel

def moduleOf (m : Found) : String := (m.group? 1 <|> m.group? 2).getD ""

variable {s : Cursor} {i : Nat} {w t : List Char}

private theorem goes_moduleBehind {g : List Char} (hs : s.rest = w ++ (g ++ t))
    (hg : ∀ c ∈ g, isBlank c = true) (hne : g ≠ []) (ht : ∀ c ∈ t.head?, isBlank c = false)
    (hw : t.takeWhile isWord ≠ []) :
    (moduleBehind i w).Goes s
      (((s.past w (g ++ t)).past g t).noting i (t.takeWhile isWord) (t.dropWhile isWord)) := by
  have hsplit : t = t.takeWhile isWord ++ t.dropWhile isWord := List.takeWhile_append_dropWhile.symm
  have hend : ∀ c ∈ (t.dropWhile isWord).head?, isWord c = false := by
    intro c hc
    simpa [Option.mem_def.mp hc] using List.head?_dropWhile_not isWord t
  have hword : (plus .word).Goes ((s.past w (g ++ t)).past g t)
      (((s.past w (g ++ t)).past g t).past (t.takeWhile isWord) (t.dropWhile isWord)) :=
    goes_plus hsplit hw (fun c hc => List.all_eq_true.mp List.all_takeWhile c hc) hend
  exact goes_spelled hs ((goes_plus (c := .blank) rfl hne hg ht).seq (hword.group hsplit i))

private theorem goes_anchor {a : Anchor} (h : a.holds s = true) : (Pattern.anchor a).Goes s s :=
  fun _ _ => if_pos h

private theorem goes_keywords {r : List Char} (hw : IsKeyword w) (hs : s.rest = w ++ r) :
    ∃ i, (i = 1 ∨ i = 2) ∧ ∀ u, (moduleBehind i w).Goes s u →
      (Pattern.alt (moduleBehind 1 "from".toList) (moduleBehind 2 "import".toList)).Goes s u := by
  rcases hw with rfl | rfl
  · refine ⟨1, .inl rfl, fun u hu k hk => ?_⟩
    exact (run_alt_left ((hu k hk).trans_ne hk)).trans (hu k hk)
  · refine ⟨2, .inr rfl, fun u hu k hk => ?_⟩
    have hother : (moduleBehind 1 "from".toList).run k s = none := run_spelled_of_not (by simp [hs])
    rw [← hu k hk]
    simp only [run, hother]

theorem matchAt_of_opened (hstart : Anchor.lineStart.holds s = true) (hs : s.groups = [])
    (hopen : opened? s.rest = some t) (hw : t.takeWhile isWord ≠ []) :
    ∃ m v, scriptImport.matchAt false s = some m ∧ moduleOf m = firstWord t ∧
      m.text.toList = v ++ t.takeWhile isWord ∧ s.rest = m.text.toList ++ t.dropWhile isWord := by
  obtain ⟨b, w, g, hkey, hrest, hb, hg, hne, ht⟩ := exists_of_opened hopen
  have hg' : g ≠ [] := hne fun he => hw (by rw [he, List.takeWhile_nil])
  have hhead : ∀ c ∈ (w ++ (g ++ t)).head?, isBlank c = false := by
    rcases hkey with rfl | rfl <;> rintro c ⟨⟩ <;> decide
  obtain ⟨i, hi, halt⟩ := goes_keywords (s := s.past b (w ++ (g ++ t))) hkey rfl
  have hgoes := (goes_anchor hstart).seq ((goes_many (c := .blank) hrest hb hhead).seq
    (halt _ (goes_moduleBehind rfl hg hg' ht hw)))
  have hm := scriptImport_eq ▸ hgoes.matchAt
  have htext : s.rest = (b ++ w ++ g ++ t.takeWhile isWord) ++ t.dropWhile isWord := by
    rw [hrest, List.append_assoc, List.takeWhile_append_dropWhile]
    simp only [List.append_assoc]
  have hlength : (((((s.past b (w ++ (g ++ t))).past w (g ++ t)).past g t).noting i
      (t.takeWhile isWord) (t.dropWhile isWord)).pos - s.pos) =
      (b ++ w ++ g ++ t.takeWhile isWord).length := by
    simp [Cursor.noting, Cursor.past]
    omega
  rw [hlength, htext, List.take_left] at hm
  refine ⟨_, b ++ w ++ g, hm, ?_, String.toList_ofList, ?_⟩
  · obtain ⟨before, rest, pos, groups⟩ := s
    subst hs
    rcases hi with rfl | rfl <;> rfl
  · rw [String.toList_ofList]
    exact htext

theorem matchAt_eq_none_of (h : Anchor.lineStart.holds s = true → isOpening s.rest = false) :
    scriptImport.matchAt false s = none := by
  rw [scriptImport_eq, matchAt_eq_none]
  rintro t ⟨s', ⟨hstart, hs⟩, u, hm, ht⟩
  rw [hs] at hm
  obtain ⟨b, hb, hu⟩ := matches_many_char.mp hm
  obtain ⟨i, w, hw, hk⟩ : ∃ i w, IsKeyword w ∧ (moduleBehind i w).Matches u t :=
    ht.elim (fun h => ⟨1, _, .inl rfl, h⟩) fun h => ⟨2, _, .inr rfl, h⟩
  obtain ⟨v, hv, x, hx, y, hy, -⟩ := matches_spelled hk
  obtain ⟨g, hg, hblank, hne⟩ := matches_plus hx
  obtain ⟨n, hn, hword, hnne⟩ := matches_plus hy
  obtain ⟨c, n, rfl⟩ := List.exists_cons_of_ne_nil hnne
  have hc : isWord c = true := hword c List.mem_cons_self
  have hx : x.rest = c :: (n ++ y.rest) := hn.rest
  have hopen : opened? s.rest = some x.rest := by
    refine opened_eq (b := b) (g := g) ?_ hw hb hblank hne ?_
    · rw [hu.rest, hv.rest, hg.rest]
    · simpa [hx] using Repair.not_blank_of_isWord hc
  have hno := h hstart
  simp [isOpening, hopen, hx, hc] at hno

end Pattern

section Lines

theorem textBelow_cons (l : String) (ls : List String) :
    textBelow (l :: ls) = '\n' :: (unlines (l :: ls)).toList := by
  rw [unlines_cons_toList]
  rfl

theorem textBelow_eq (ls : List String) : textBelow ls = [] ∨ ∃ r, textBelow ls = '\n' :: r := by
  cases ls with
  | nil => exact .inl rfl
  | cons l ls => exact .inr ⟨_, textBelow_cons l ls⟩

/-- What stands behind a keyword on its line goes on below it just if it is nothing. -/
def goOn (below t : List Char) : List Char :=
  if t = [] then below.dropWhile isBlank else t ++ below

private theorem stripped_below {w : List Char} (hw : '\n' ∉ w) (x : List Char) (ls : List String) :
    stripped? w (x ++ textBelow ls) = (stripped? w x).map (goOn (textBelow ls)) := by
  have hfeed : isBlank '\n' = true := by decide
  by_cases hp : w <+: x
  · obtain ⟨r, rfl⟩ := hp
    have hwhole : (w ++ r ++ textBelow ls).drop w.length = r ++ textBelow ls := by
      rw [List.append_assoc, List.drop_left]
    have hpre : w.isPrefixOf (w ++ r) = true ∧ w.isPrefixOf (w ++ r ++ textBelow ls) = true := by
      simp [List.append_assoc]
    rw [stripped?, stripped?, hwhole, List.drop_left, hpre.1, hpre.2]
    cases r with
    | nil =>
      rcases textBelow_eq ls with hb | ⟨r, hb⟩ <;> simp [hb, goOn, hfeed]
    | cons c r =>
      by_cases hc : isBlank c = true
      · simp [hc, goOn, List.dropWhile_append]
      · simp [hc]
  · have hq : ¬ w <+: x ++ textBelow ls := by
      rcases textBelow_eq ls with hb | ⟨r, hb⟩
      · rwa [hb, List.append_nil]
      · rw [hb]
        exact fun h => hp (prefix_of_separated hw h)
    simp [stripped?, hp, hq]

theorem dropWhile_below {l : List Char} (hl : l.all isBlank = false) (ls : List String) :
    (l ++ textBelow ls).dropWhile isBlank = l.dropWhile isBlank ++ textBelow ls := by
  rw [List.dropWhile_append, if_neg]
  simpa using hl

theorem opened_below {l : List Char} (hl : l.all isBlank = false) (ls : List String) :
    opened? (l ++ textBelow ls) = (opened? l).map (goOn (textBelow ls)) := by
  rw [opened?, dropWhile_below hl, stripped_below (by decide), stripped_below (by decide),
    ← Option.map_or]
  rfl

end Lines

section Names

def modulesFrom (before : List Char) (pos : Nat) (cs : List Char) : List String :=
  (scriptImport.foundFrom before pos cs).map moduleOf

def startsLine (before : List Char) : Bool := before.isEmpty || before.head? == some '\n'

theorem moves_scriptImport : scriptImport.Moves := moves_of_coversSome (by decide +kernel)

variable {before cs : List Char} {pos : Nat}

theorem modulesFrom_nil : modulesFrom before pos [] = [] := by
  rw [modulesFrom, foundFrom_nil moves_scriptImport]
  rfl

theorem modulesFrom_cons {c : Char} (h : startsLine before = true → isOpening (c :: cs) = false) :
    modulesFrom before pos (c :: cs) = modulesFrom (c :: before) (pos + 1) cs := by
  rw [modulesFrom, foundFrom_of_none (matchAt_eq_none_of h)]
  rfl

theorem takeWhile_ne_nil {t : List Char} : t.takeWhile isWord ≠ [] ↔ t.head?.any isWord = true := by
  cases t with
  | nil => simp
  | cons c t => by_cases hc : isWord c = true <;> simp [hc]

theorem modulesFrom_opening {t : List Char} (pos : Nat) (hstart : startsLine before = true)
    (hopen : opened? cs = some t) (hw : t.head?.any isWord = true) :
    ∃ before' pos', startsLine before' = false ∧ modulesFrom before pos cs =
      firstWord t :: modulesFrom before' pos' (t.dropWhile isWord) := by
  have hne := takeWhile_ne_nil.mpr hw
  obtain ⟨m, v, hm, hname, htext, hrest⟩ :=
    matchAt_of_opened (s := ⟨before, cs, pos, []⟩) hstart rfl hopen hne
  refine ⟨m.text.toList.reverse ++ before, pos + m.text.toList.length, ?_, ?_⟩
  · obtain ⟨n, c, hn⟩ := (List.eq_nil_or_concat _).resolve_left hne
    have hc : isWord c = true :=
      List.all_eq_true.mp List.all_takeWhile c (by rw [hn]; simp)
    have hfeed : c ≠ '\n' := by
      rintro rfl
      exact absurd hc (by decide)
    rw [htext, hn]
    simpa [startsLine] using hfeed
  · rw [modulesFrom, foundFrom_of_some moves_scriptImport hm hrest, List.map_cons, hname]
    rfl

theorem isOpening_append {b : List Char} (hb : ∀ c ∈ b, isBlank c = true) :
    isOpening (b ++ cs) = isOpening cs := by
  rw [isOpening, opened_append hb]
  rfl

theorem modulesFrom_blanks {b : List Char} (hb : ∀ c ∈ b, isBlank c = true)
    (h : isOpening cs = false) :
    modulesFrom before pos (b ++ cs) = modulesFrom (b.reverse ++ before) (pos + b.length) cs := by
  induction b generalizing before pos with
  | nil => rfl
  | cons c b ih =>
    have hno : isOpening (c :: (b ++ cs)) = false := (isOpening_append (b := c :: b) hb).trans h
    rw [List.cons_append, modulesFrom_cons fun _ => hno,
      ih fun d hd => hb d (List.mem_cons_of_mem c hd)]
    simp [Nat.add_assoc, Nat.add_comm 1]

theorem modulesFrom_line {u : List Char} {ls : List String} (hu : '\n' ∉ u)
    (h : startsLine before = true → isOpening (u ++ textBelow ls) = false)
    (hls : ∀ before pos, startsLine before = true →
      modulesFrom before pos (unlines ls).toList = (readLines false ls).2) :
    modulesFrom before pos (u ++ textBelow ls) = (readLines false ls).2 := by
  induction u generalizing before pos with
  | nil =>
    cases ls with
    | nil => exact modulesFrom_nil
    | cons l ls =>
      rw [List.nil_append, textBelow_cons] at h ⊢
      rw [modulesFrom_cons h]
      exact hls _ _ (by simp [startsLine])
  | cons c u ih =>
    have hc : c ≠ '\n' := fun he => hu (he ▸ List.mem_cons_self)
    rw [List.cons_append] at h ⊢
    rw [modulesFrom_cons h]
    refine ih (fun hm => hu (List.mem_cons_of_mem c hm)) fun hstart => ?_
    simp [startsLine, hc] at hstart

end Names

section Reading

variable {l : String} {ls : List String} {waits : Bool} {before cs t b : List Char} {pos : Nat}

theorem readLines_blank (hl : l.toList.all isBlank = true) :
    readLines waits (l :: ls) = readLines waits ls := by
  have hline : readLine waits l = (waits, none) := if_pos hl
  simp [readLines, hline]

theorem readLines_unsought (hl : l.toList.all isBlank = false) (hs : sought? waits l = none) :
    readLines waits (l :: ls) = readLines false ls := by
  have hline : readLine waits l = (false, none) := by simp [readLine, hl, hs]
  simp [readLines, hline]

theorem readLine_sought (hl : l.toList.all isBlank = false) (hs : sought? waits l = some t) :
    readLine waits l = (t.isEmpty, if firstWord t = "" then none else some (firstWord t)) := by
  simp only [readLine, hl, hs, Bool.false_eq_true, if_false]

theorem firstWord_eq_empty : firstWord t = "" ↔ t.head?.any isWord = false := by
  rw [firstWord, String.ofList_eq_empty_iff, ← not_iff_not, ← ne_eq, takeWhile_ne_nil,
    Bool.not_eq_false]

theorem readLines_word (hl : l.toList.all isBlank = false) (hs : sought? waits l = some t)
    (hw : t.head?.any isWord = true) :
    (readLines waits (l :: ls)).2 = firstWord t :: (readLines false ls).2 := by
  have hne : firstWord t ≠ "" := by
    rw [ne_eq, firstWord_eq_empty, hw]
    decide
  have ht : t.isEmpty = false := by
    cases t with
    | nil => cases hw
    | cons c t => rfl
  rw [readLines, readLine_sought hl hs, if_neg hne, ht]
  rfl

theorem readLines_other (hl : l.toList.all isBlank = false) (hs : sought? waits l = some t)
    (hw : t.head?.any isWord = false) :
    readLines waits (l :: ls) = readLines t.isEmpty ls := by
  rw [readLines, readLine_sought hl hs, if_pos (firstWord_eq_empty.mpr hw)]
  rfl

/-- The text of some lines is read line by line, also behind blanks. -/
def ReadsFree (ls : List String) : Prop :=
  ∀ before pos b, startsLine before = true → (∀ c ∈ b, isBlank c = true) →
    modulesFrom before pos (b ++ (unlines ls).toList) = (readLines false ls).2

/-- Where a keyword leads to the text of some lines, it takes the first word of them; if they begin
with none, the lines are read as if the keyword was not there. -/
def ReadsWaiting (ls : List String) : Prop :=
  ∀ before pos cs, startsLine before = true →
    opened? cs = some ((unlines ls).toList.dropWhile isBlank) →
    (isOpening cs = false → modulesFrom before pos cs = (readLines false ls).2) →
    modulesFrom before pos cs = (readLines true ls).2

theorem word_append (t : List Char) {r : List Char} (hr : ∀ c ∈ r.head?, isWord c = false) :
    (t ++ r).takeWhile isWord = t.takeWhile isWord ∧
      (t ++ r).dropWhile isWord = t.dropWhile isWord ++ r := by
  induction t with
  | nil =>
    cases r with
    | nil => simp
    | cons c r => simp [hr c rfl]
  | cons c t ih => by_cases hc : isWord c = true <;> simp [hc, ih]

private theorem ReadsFree.pass (h : ReadsFree ls) (hl : Unbroken l) (hb : ∀ c ∈ b, isBlank c = true)
    (hno : isOpening (l.toList ++ textBelow ls) = false) :
    modulesFrom before pos (b ++ (l.toList ++ textBelow ls)) = (readLines false ls).2 := by
  rw [modulesFrom_blanks hb hno]
  exact modulesFrom_line hl (fun _ => hno) fun before pos hstart =>
    h before pos [] hstart (List.forall_mem_nil _)

/-- Where a keyword leads to a word, the word is taken and the rest of its line is passed. -/
theorem ReadsFree.take (h : ReadsFree ls) (hstart : startsLine before = true)
    (hopen : opened? cs = some (t ++ textBelow ls)) (ht : '\n' ∉ t)
    (hw : t.head?.any isWord = true) :
    modulesFrom before pos cs = firstWord t :: (readLines false ls).2 := by
  have hstop : ∀ c ∈ (textBelow ls).head?, isWord c = false := by
    rcases textBelow_eq ls with hb | ⟨r, hb⟩
    · simp [hb]
    · simp [hb, show isWord '\n' = false by decide]
  obtain ⟨htake, hdrop⟩ := word_append t hstop
  have hhead : (t ++ textBelow ls).head?.any isWord = true := by
    cases t with
    | nil => cases hw
    | cons c t => exact hw
  obtain ⟨before', pos', hwithin, hread⟩ := modulesFrom_opening pos hstart hopen hhead
  rw [hread, firstWord, htake, hdrop]
  congr 1
  refine modulesFrom_line (fun hm => ht ((List.dropWhile_sublist _).subset hm))
    (fun hs => ?_) fun before pos hstart => h before pos [] hstart (List.forall_mem_nil _)
  rw [hwithin] at hs
  cases hs

private theorem exists_feed (ls : List String) :
    ∃ f, (∀ c ∈ f, isBlank c = true) ∧ textBelow ls = f ++ (unlines ls).toList := by
  cases ls with
  | nil => exact ⟨[], List.forall_mem_nil _, rfl⟩
  | cons l ls => exact ⟨['\n'], forall_mem_of_all (by decide), textBelow_cons l ls⟩

theorem ReadsFree.cons (hl : Unbroken l) (hfree : ReadsFree ls) (hwait : ReadsWaiting ls) :
    ReadsFree (l :: ls) := by
  intro before pos b hstart hb
  rw [unlines_cons_toList]
  change modulesFrom before pos (b ++ (l.toList ++ textBelow ls)) = _
  cases hblank : l.toList.all isBlank with
  | true =>
    -- a blank line with its end joins the blanks before the next line
    obtain ⟨f, hf, hbelow⟩ := exists_feed ls
    have hall : ∀ c ∈ b ++ l.toList ++ f, isBlank c = true := by
      simp only [List.mem_append]
      rintro c ((hc | hc) | hc)
      · exact hb c hc
      · exact List.all_eq_true.mp hblank c hc
      · exact hf c hc
    have hread := hfree before pos _ hstart hall
    rw [hbelow, readLines_blank hblank]
    simpa only [List.append_assoc] using hread
  | false =>
    have hopen := opened_below hblank ls
    have hwhole := (opened_append hb _).trans hopen
    cases hline : sought? false l with
    | none =>
      have hline' : opened? l.toList = none := hline
      rw [hline'] at hopen
      rw [readLines_unsought hblank hline]
      exact hfree.pass hl hb (by simp [isOpening, hopen])
    | some t =>
      have hline' : opened? l.toList = some t := hline
      rw [hline', Option.map_some] at hopen hwhole
      have hpass (hno : isOpening (b ++ (l.toList ++ textBelow ls)) = false) :
          modulesFrom before pos (b ++ (l.toList ++ textBelow ls)) = (readLines false ls).2 :=
        hfree.pass hl hb (isOpening_append hb ▸ hno)
      by_cases ht : t = []
      · -- the keyword stands alone and waits
        subst ht
        rw [readLines_other hblank hline rfl]
        rw [goOn, if_pos rfl, textBelow_trimmed, trimStart_toList] at hwhole
        exact hwait before pos _ hstart hwhole hpass
      · rw [goOn, if_neg ht] at hwhole
        cases hw : t.head?.any isWord with
        | true =>
          rw [readLines_word hblank hline hw]
          exact hfree.take hstart hwhole (not_mem_of_opened hline' hl) hw
        | false =>
          rw [readLines_other hblank hline hw, List.isEmpty_eq_false_iff.mpr ht]
          exact hpass (by simp [isOpening, hwhole, List.head?_append_of_ne_nil _ ht, hw])

private theorem ReadsWaiting.cons (hl : Unbroken l) (hfree : ReadsFree ls)
    (hwait : ReadsWaiting ls) : ReadsWaiting (l :: ls) := by
  intro before pos cs hstart hopen hno
  rw [unlines_cons_toList] at hopen
  change opened? cs = some ((l.toList ++ textBelow ls).dropWhile isBlank) at hopen
  cases hblank : l.toList.all isBlank with
  | true =>
    rw [readLines_blank hblank] at hno ⊢
    rw [List.dropWhile_append_of_pos (List.all_eq_true.mp hblank), textBelow_trimmed,
      trimStart_toList] at hopen
    exact hwait before pos cs hstart hopen hno
  | false =>
    have hdrop := dropWhile_below hblank ls
    have hne : l.toList.dropWhile isBlank ≠ [] := by simpa using hblank
    rw [hdrop] at hopen
    cases hw : (l.toList.dropWhile isBlank).head?.any isWord with
    | true =>
      have hs : sought? true l = some (l.toList.dropWhile isBlank) := by simp [sought?, hw]
      rw [readLines_word hblank hs hw]
      exact hfree.take hstart hopen (fun hm => hl ((List.dropWhile_sublist _).subset hm)) hw
    | false =>
      -- the keyword finds no word, so the line is read by itself
      have hs : readLine true l = readLine false l := by
        simp only [readLine, hblank, sought?, hw, Bool.and_false, Bool.false_eq_true, if_false]
      rw [readLines, hs]
      exact hno (by simp [isOpening, hopen, List.head?_append_of_ne_nil _ hne, hw])

private theorem reads_lines (hls : ∀ l ∈ ls, Unbroken l) : ReadsFree ls ∧ ReadsWaiting ls := by
  induction ls with
  | nil =>
    refine ⟨fun before pos b hstart hb => ?_, fun before pos cs hstart hopen hno => ?_⟩
    · exact (modulesFrom_blanks hb rfl).trans modulesFrom_nil
    · have hnone : (unlines []).toList.dropWhile isBlank = [] := rfl
      exact hno (by simp [isOpening, hopen, hnone])
  | cons l ls ih =>
    obtain ⟨hl, hls⟩ := List.forall_mem_cons.mp hls
    obtain ⟨hfree, hwait⟩ := ih hls
    exact ⟨.cons hl hfree hwait, .cons hl hfree hwait⟩

private theorem findAll_modules (text : String) :
    (scriptImport.findAll text).map moduleOf = (readLines false (lines text)).2 := by
  have hls : ∀ l ∈ lines text, Unbroken l := fun l hl => .of_mem_lines hl
  have hread := (reads_lines hls).1 [] 0 [] rfl (List.forall_mem_nil _)
  rwa [List.nil_append, unlines_lines] at hread

private theorem exists_of_readLine {n : String} (h : (readLine waits l).2 = some n) :
    ∃ t, n = firstWord t := by
  unfold readLine at h
  split at h
  · cases h
  · split at h
    · cases h
    · rename_i t _
      dsimp only at h
      split at h
      · cases h
      · exact ⟨t, (Option.some.inj h).symm⟩

private theorem isWord_of_mem_readLines {n : String} (h : n ∈ (readLines waits ls).2) :
    ∀ c ∈ n.toList, isWord c = true := by
  induction ls generalizing waits with
  | nil => cases h
  | cons l ls ih =>
    rcases List.mem_append.mp h with hn | hn
    · obtain ⟨t, rfl⟩ := exists_of_readLine (Option.mem_toList.mp hn)
      rw [firstWord, String.toList_ofList]
      exact fun c hc => List.all_eq_true.mp List.all_takeWhile c hc
    · exact ih hn

end Reading

section Dependencies

def modules (ls : List String) : List String := (readLines false ls).2

def isWaiting (ls : List String) : Bool := (readLines false ls).1

variable {d : Disk} {dir path text line m n : String} {above below ms : List String}

private theorem beside_eq (hn : '/' ∉ n.toList) :
    beside d dir n = if d.exists? (Path.join dir n) then some n else none := by
  rw [beside, Path.baseName_join hn]

private theorem ofScript_eq : ofScript d dir text =
    (modules (lines text)).filterMap fun n => beside d dir (n ++ ".py") := by
  rw [modules, ← findAll_modules, List.filterMap_map]
  rfl

theorem mem_ofScript : n ++ ".py" ∈ ofScript d dir text ↔
    n ∈ modules (lines text) ∧ d.exists? (Path.join dir (n ++ ".py")) = true := by
  have hbeside : ∀ x ∈ modules (lines text), beside d dir (x ++ ".py") =
      if d.exists? (Path.join dir (x ++ ".py")) then some (x ++ ".py") else none := by
    intro x hx
    have hslash : '/' ∉ x.toList := fun hm =>
      absurd (isWord_of_mem_readLines hx '/' hm) (by decide)
    exact beside_eq (by simpa using hslash)
  rw [ofScript_eq, List.mem_filterMap]
  constructor
  · rintro ⟨x, hx, hfile⟩
    rw [hbeside x hx] at hfile
    split at hfile
    · rename_i he
      have hsame : x = n := by
        have h := congrArg String.toList (Option.some.inj hfile)
        rw [String.toList_append, String.toList_append] at h
        exact String.toList_inj.mp (List.append_cancel_right h)
      exact hsame ▸ ⟨hx, he⟩
    · cases hfile
  · rintro ⟨hn, he⟩
    exact ⟨n, hn, by rw [hbeside n hn, if_pos he]⟩

/-- A line imports modules by a list: blanks may stand around each name. -/
structure ListsModules (line : String) (names : List String) : Prop where
  spelled : ∃ indent gap pieces, (∀ c ∈ indent.toList, isBlank c = true) ∧ Repair.IsGap gap ∧
    line = indent ++ "import" ++ gap ++ join "," pieces ∧ names = pieces.map trim
  names : ∀ n ∈ names, IsName n.toList

/-- The module that is read where a list begins: the first one up to a dot, or the keyword itself
where another one waits. -/
def leader (above : List String) (m : String) : String :=
  if isWaiting above then "import" else firstWord m.toList

private theorem not_word_of_blank {c : Char} (h : isBlank c = true) : isWord c = false := by
  cases hw : isWord c with
  | false => rfl
  | true =>
    rw [Repair.not_blank_of_isWord hw] at h
    cases h

theorem ListsModules.exists_split (h : ListsModules line (m :: ms)) :
    ∃ (indent gap bs : List Char) (ps : List String), line.toList =
      indent ++ ("import".toList ++ (gap ++ (m.toList ++ bs))) ++ ps.flatMap (',' :: ·.toList) ∧
    (∀ c ∈ indent, isBlank c = true) ∧ (∀ c ∈ gap, isBlank c = true) ∧ gap ≠ [] ∧
    (∀ c ∈ bs, isBlank c = true) ∧ ps.map trim = ms := by
  obtain ⟨indent, gap, pieces, hi, hgap, hline, hpieces⟩ := h.spelled
  obtain ⟨p, ps, rfl, hp, hps⟩ := List.map_eq_cons_iff.mp hpieces.symm
  obtain ⟨as, bs, has, hbs, hsplit⟩ := exists_trim p
  rw [hp] at hsplit
  have hjoin : (join "," (p :: ps)).toList = p.toList ++ ps.flatMap (',' :: ·.toList) :=
    join_cons_toList ',' p ps
  refine ⟨indent.toList, gap.toList ++ as, bs, ps, ?_, hi, ?_, ?_, hbs, hps⟩
  · rw [hline]
    simp only [String.toList_append, hjoin, hsplit, List.append_assoc]
  · exact fun c hc => (List.mem_append.mp hc).elim (hgap.blank c) (has c)
  · simpa using fun he => absurd he hgap.nonempty

theorem ListsModules.readLine_eq (h : ListsModules line (m :: ms)) (above : List String) :
    readLine (isWaiting above) line =
      (false, if leader above m = "" then none else some (leader above m)) := by
  obtain ⟨indent, gap, bs, ps, hsplit, hi, hgap, hne, hbs, -⟩ := h.exists_split
  obtain ⟨rest, hrest⟩ : ∃ rest, rest = bs ++ ps.flatMap (',' :: ·.toList) := ⟨_, rfl⟩
  have hline : line.toList = indent ++ ("import".toList ++ (gap ++ (m.toList ++ rest))) := by
    rw [hsplit, hrest]
    simp only [List.append_assoc]
  have hend : ∀ c ∈ rest.head?, isWord c = false := by
    rw [hrest]
    cases bs with
    | nil => cases ps <;> simp [show isWord ',' = false by decide]
    | cons b bs => simpa using not_word_of_blank (hbs b List.mem_cons_self)
  obtain ⟨hm, hname⟩ := h.names m List.mem_cons_self
  have hsolid : line.toList.all isBlank = false := by
    simp [hline, show isBlank 'i' = false by decide]
  have hstart : line.toList.dropWhile isBlank =
      "import".toList ++ (gap ++ (m.toList ++ rest)) := by
    rw [hline, List.dropWhile_append_of_pos hi]
    simp [show isBlank 'i' = false by decide]
  have hhead : ∀ c ∈ (m.toList ++ rest).head?, isBlank c = false := by
    obtain ⟨c, cs, hc⟩ := List.exists_cons_of_ne_nil hm
    simpa [hc] using not_blank_of_namePart (hname c (by simp [hc]))
  have hstop : ∀ c ∈ (gap ++ (m.toList ++ rest)).head?, isWord c = false := by
    obtain ⟨c, cs, rfl⟩ := List.exists_cons_of_ne_nil hne
    simpa using not_word_of_blank (hgap c List.mem_cons_self)
  cases hw : isWaiting above with
  | true =>
    have hs : sought? true line = some ("import".toList ++ (gap ++ (m.toList ++ rest))) := by
      rw [sought?, hstart]
      simp [show isWord 'i' = true by decide]
    have hword : firstWord ("import".toList ++ (gap ++ (m.toList ++ rest))) = "import" := by
      rw [firstWord, (word_append _ hstop).1]
      decide
    rw [readLine_sought hsolid hs, hword, leader, if_pos hw]
    rfl
  | false =>
    have hs : sought? false line = some (m.toList ++ rest) :=
      opened_eq hline (.inr rfl) hi hgap hne hhead
    have hword : firstWord (m.toList ++ rest) = firstWord m.toList := by
      rw [firstWord, (word_append _ hend).1]
      rfl
    have hsome : (m.toList ++ rest).isEmpty = false := by simp [hm]
    rw [readLine_sought hsolid hs, hsome, hword, leader, hw]
    rfl

/-- Which modules of a list are dependencies. Of the modules that a line lists and that stand beside
the script, the first is found, and another one just if it is read in a line above or below. Where a
keyword waits above the line, the first is not found by this line either. -/
theorem listed_dependency_iff (hread : d.read path false = .ok text)
    (hlines : lines text = above ++ line :: below) (hlist : ListsModules line (m :: ms)) :
    ∃ deps, ofFile d path (some .python) = .ok deps ∧
      ∀ n ∈ m :: ms, d.exists? (Path.join (Path.dirName path) (n ++ ".py")) = true →
        (n ++ ".py" ∈ deps ↔ n = leader above m ∨ n ∈ modules above ∨ n ∈ modules below) := by
  have hdeps : ofFile d path (some .python) =
      .ok (sorted (ofScript d (Path.dirName path) text)) := by
    rw [ofFile, hread]
    rfl
  refine ⟨_, hdeps, fun n hn hbeside => ?_⟩
  have hne : n ≠ "" := fun he => (hlist.names n hn).1 (by rw [he]; rfl)
  rw [mem_sorted, mem_ofScript, and_iff_left hbeside, hlines, modules, readLines_append, readLines]
  have hline := hlist.readLine_eq above
  rw [isWaiting] at hline
  have hleader : n ∈ (if leader above m = "" then none else some (leader above m)).toList ↔
      n = leader above m := by
    by_cases he : leader above m = ""
    · simp [he, hne]
    · simp [he]
  rw [hline, List.mem_append, List.mem_append, hleader]
  exact or_left_comm

def listing : Disk where
  files := [(["main.py"], ⟨"import a, b\n", true⟩), (["a.py"], ⟨"", true⟩), (["b.py"], ⟨"", true⟩)]

/-- The second module of a list is not found, although it is there. -/
theorem second_module_unfound : ListsModules "import a, b" ["a", "b"] ∧
    listing.exists? (Path.join (Path.dirName "main.py") ("b" ++ ".py")) = true ∧
    ∃ deps, ofFile listing "main.py" (some .python) = .ok deps ∧
      "a" ++ ".py" ∈ deps ∧ "b" ++ ".py" ∉ deps := by
  have hlist : ListsModules "import a, b" ["a", "b"] :=
    { spelled := ⟨"", " ", ["a", " b"], forall_mem_of_all (by decide),
        ⟨by decide, forall_mem_of_all (by decide)⟩, by decide, by decide⟩
      names := List.forall_mem_cons.mpr ⟨⟨by decide, forall_mem_of_all (by decide)⟩,
        List.forall_mem_singleton.mpr ⟨by decide, forall_mem_of_all (by decide)⟩⟩ }
  have hread : listing.read "main.py" false = .ok "import a, b\n" := by rfl
  have hlines : lines "import a, b\n" = [] ++ "import a, b" :: [""] := by decide
  obtain ⟨deps, hdeps, hiff⟩ := listed_dependency_iff hread hlines hlist
  refine ⟨hlist, by decide, deps, hdeps, ?_, ?_⟩
  · exact (hiff "a" (by decide) (by decide)).mpr (.inl (by decide))
  · rw [hiff "b" (by decide) (by decide)]
    decide

end Dependencies

end Mender.Dependency
