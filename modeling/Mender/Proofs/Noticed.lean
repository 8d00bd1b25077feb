import Mender.Proofs.Trim
import Mender.Proofs.Verdict

/-! Which cut imports are noticed. The check reads the imports of a text before and after an edit,
and it can only notice the cut of a name that it reads. Main statement: an import on a line of its
own is read where the line is not indented, or where the text below begins with `as`; in both cases
only if the keyword is not taken for a module name itself. -/
namespace Mender.Review
open Text Words

namespace Words
variable {ps : Words}

private theorem ofChars_gap_only {g : List Char} (hg : ∀ c ∈ g, isNamePart c = false) :
    ofChars g = [([], g)] := by
  induction g with
  | nil => rfl
  | cons c g ih =>
    change push c (ofChars g) = _
    rw [ih fun d hd => hg d (List.mem_cons_of_mem _ hd), push,
      if_neg (by simp [hg c List.mem_cons_self]), if_pos rfl]

private theorem ofChars_gap_append {g a v h : List Char} (hg : ∀ c ∈ g, isNamePart c = false)
    (hne : g ≠ []) (hv : v ≠ []) (ha : ofChars a = (v, h) :: ps) :
    ofChars (g ++ a) = ([], g) :: (v, h) :: ps := by
  induction g with
  | nil => exact absurd rfl hne
  | cons c g ih =>
    have hc : ¬ isNamePart c = true := by simp [hg c List.mem_cons_self]
    change push c (ofChars (g ++ a)) = _
    cases g with
    | nil => rw [List.nil_append, ha, push, if_neg hc, if_neg hv]
    | cons d g =>
      rw [ih (fun e he => hg e (List.mem_cons_of_mem _ he)) (List.cons_ne_nil d g), push, if_neg hc,
        if_pos rfl]

theorem ofChars_eq_iff {cs : List Char} : ofChars cs = ps ↔ Tiled ps ∧ spell ps = cs := by
  constructor
  · rintro rfl
    exact ⟨tiled_ofChars cs, spell_ofChars cs⟩
  · rintro ⟨ht, rfl⟩
    induction ht with
    | single hw hg => simpa using ofChars_names hw (ofChars_gap_only hg)
    | cons hw hg hne hv ht ih =>
      rw [spell_cons]
      simpa using ofChars_names hw (ofChars_gap_append hg hne hv ih)

theorem first_append (hne : ps ≠ []) (qs : Words) : first (ps ++ qs) = first ps := by
  obtain ⟨p, ps, rfl⟩ := List.exists_cons_of_ne_nil hne
  rfl

theorem tiled_cons_iff {w g : List Char} (hne : ps ≠ []) :
    Tiled ((w, g) :: ps) ↔ Tiled [(w, g)] ∧ g ≠ [] ∧ first ps ≠ [] ∧ Tiled ps := by
  obtain ⟨⟨v, h⟩, ps, rfl⟩ := List.exists_cons_of_ne_nil hne
  constructor
  · intro ht
    cases ht with
    | cons hw hg hne hv ht => exact ⟨.single hw hg, hne, hv, ht⟩
  · rintro ⟨hp, hgap, hv, ht⟩
    exact .cons hp.word hp.gap hgap hv ht

@[simp] theorem spell_append (ps qs : Words) : spell (ps ++ qs) = spell ps ++ spell qs :=
  List.flatMap_append

namespace Tiled
variable {ps qs : Words} {w g h : List Char}

theorem append (ht : Tiled (ps ++ [(w, g)])) (hne : g ≠ []) (hq : Tiled qs)
    (hfirst : first qs ≠ []) : Tiled (ps ++ [(w, g)] ++ qs) := by
  induction ps with
  | nil =>
    obtain ⟨v, h, qs, rfl⟩ := hq.exists_cons
    exact .cons ht.word ht.gap hne hfirst hq
  | cons p ps ih =>
    obtain ⟨hp, hgap, hv, ht⟩ := (tiled_cons_iff (by simp)).mp ht
    rw [List.cons_append, List.cons_append, tiled_cons_iff (by simp), first_append (by simp)]
    exact ⟨hp, hgap, hv, ih ht⟩

theorem last (ht : Tiled (ps ++ [(w, g)])) : Tiled [(w, g)] := by
  induction ps with
  | nil => exact ht
  | cons p ps ih => exact ih ((tiled_cons_iff (by simp)).mp ht).2.2.2

theorem replace_last (ht : Tiled (ps ++ [(w, g)])) (hh : ∀ c ∈ h, isNamePart c = false) :
    Tiled (ps ++ [(w, h)]) := by
  induction ps with
  | nil => exact .single ht.word hh
  | cons p ps ih =>
    obtain ⟨hp, hgap, hv, ht⟩ := (tiled_cons_iff (by simp)).mp ht
    rw [List.cons_append, tiled_cons_iff (by simp)]
    refine ⟨hp, hgap, ?_, ih ht⟩
    cases ps with
    | nil => exact hv
    | cons q ps => exact hv

private theorem cut {v k : List Char} (ht : Tiled (ps ++ [(w, g)] ++ (v, k) :: qs)) :
    Tiled (ps ++ [(w, g)]) ∧ g ≠ [] ∧ v ≠ [] := by
  induction ps with
  | nil =>
    obtain ⟨hp, hgap, hv, -⟩ := (tiled_cons_iff (by simp)).mp ht
    exact ⟨hp, hgap, hv⟩
  | cons p ps ih =>
    obtain ⟨hp, hgap, hv, ht⟩ := (tiled_cons_iff (by simp)).mp ht
    rw [List.cons_append, tiled_cons_iff (by simp), ← first_append (by simp) ((v, k) :: qs)]
    exact ⟨⟨hp, hgap, hv, (ih ht).1⟩, (ih ht).2⟩

end Tiled

inductive Leads : Words → Prop
  | nil : Leads []
  | snoc {ps : Words} {w g : List Char} (ht : Tiled (ps ++ [(w, g)])) (hne : g ≠ []) :
      Leads (ps ++ [(w, g)])

theorem Leads.tiled {ps qs : Words} (h : Leads ps) (hq : Tiled qs) (hfirst : first qs ≠ []) :
    Tiled (ps ++ qs) := by
  cases h with
  | nil => exact hq
  | snoc ht hne => exact ht.append hne hq hfirst

theorem Leads.ends {ps : Words} (h : Leads ps) :
    ∀ c ∈ (spell ps).getLast?, isNamePart c = false := by
  intro c hc
  cases h with
  | nil => cases hc
  | @snoc ps w g ht hne =>
    have hgap : (spell (ps ++ [(w, g)])).getLast? = g.getLast? := by
      simp [List.getLast?_eq_some_getLast hne]
    rw [hgap] at hc
    exact ht.last.gap c (List.mem_of_getLast? hc)

theorem Tiled.init {ps : Words} {w g : List Char} (ht : Tiled (ps ++ [(w, g)])) :
    Leads ps ∧ (w = [] → ps = []) := by
  rcases ps.eq_nil_or_concat with rfl | ⟨ps, ⟨v, k⟩, rfl⟩
  · exact ⟨.nil, fun _ => rfl⟩
  · rw [List.concat_eq_append] at ht ⊢
    obtain ⟨hps, hne, hw⟩ := ht.cut
    exact ⟨.snoc hps hne, fun he => absurd he hw⟩

theorem exists_leads {cs : List Char} (h : ∀ c ∈ cs.getLast?, isNamePart c = false) :
    ∃ ps, Leads ps ∧ spell ps = cs := by
  rcases (ofChars cs).eq_nil_or_concat with hnil | ⟨ps, ⟨w, g⟩, hps⟩
  · exact ⟨[], .nil, hnil ▸ spell_ofChars cs⟩
  rw [List.concat_eq_append, ofChars_eq_iff] at hps
  obtain ⟨ht, hspell⟩ := hps
  by_cases hg : g = []
  · subst hg
    rcases w.eq_nil_or_concat with rfl | ⟨w, c, rfl⟩
    · rw [ht.init.2 rfl] at hspell
      exact ⟨[], .nil, hspell⟩
    · have hc : c ∈ cs.getLast? := by simp [← hspell]
      have hname : isNamePart c = true := ht.last.word c (by simp)
      rw [h c hc] at hname
      cases hname
  · exact ⟨_, .snoc ht hg, hspell⟩

end Words

namespace Form
variable {ps qs : Words} {f : Form}

/-- Whether the next word stands at the start of a line. The words before it are given from
behind. -/
def atStart : Words → Bool
  | [] => true
  | (_, g) :: _ => endsLine g

/-- Whether the first of the words ahead is taken for the module of an import. The words before are
given from behind. -/
def taken (f : Form) : Words → Words → Bool
  | [], _ => false
  | (w, g) :: before, ahead =>
    f.opens (atStart before) w && f.follows g ahead && !f.taken before ((w, g) :: ahead)

def resume (f : Form) (before : Words) : Words → List (List Char)
  | [] => []
  | (v, h) :: ps =>
    if f.taken before ((v, h) :: ps) then v :: f.scan (endsLine h) ps
    else f.scan (atStart before) ((v, h) :: ps)

/-- A form tells two lists of words not apart, neither behind a keyword nor behind a name. -/
structure Blurs (f : Form) (ps qs : Words) : Prop where
  name : ∀ g, f.follows g ps = f.follows g qs
  after : ∀ g p, f.follows g (p :: ps) = f.follows g (p :: qs)

theorem Blurs.cons (h : f.Blurs ps qs) (p : List Char × List Char) :
    f.Blurs (p :: ps) (p :: qs) where
  name g := h.after g p
  after g q := by cases f <;> rfl

theorem Blurs.taken_eq (h : f.Blurs ps qs) (before : Words) :
    f.taken before ps = f.taken before qs := by
  induction before generalizing ps qs with
  | nil => rfl
  | cons p before ih => rw [taken, taken, h.name, ih (h.cons p)]

theorem scan_reaches {v v' h : List Char}
    (hb : f.Blurs ((v, h) :: ps) ((v', h) :: qs)) (before : Words) : ∃ out,
    f.scan true (before.reverse ++ (v, h) :: ps) = out ++ f.resume before ((v, h) :: ps) ∧
    f.scan true (before.reverse ++ (v', h) :: qs) = out ++ f.resume before ((v', h) :: qs) := by
  induction before generalizing v v' h ps qs with
  | nil => exact ⟨[], rfl, rfl⟩
  | cons p before ih =>
    obtain ⟨w, g⟩ := p
    obtain ⟨out, hout, hout'⟩ := ih (hb.cons (w, g))
    have hsame := (hb.cons (w, g)).taken_eq before
    simp only [List.reverse_cons, List.append_assoc, List.singleton_append]
    rw [hout, hout']
    cases ht : f.taken before ((w, g) :: (v, h) :: ps) with
    | true =>
      -- The word before is a module name, so the reading goes on behind it.
      refine ⟨out ++ [w], ?_, ?_⟩
      · simp [resume, taken, ht, atStart]
      · simp [resume, taken, ← hsame, ht, atStart]
    | false =>
      refine ⟨out, ?_, ?_⟩
      · simp [resume, taken, ht, atStart, scan]
      · simp [resume, taken, ← hsame, ht, atStart, scan]

end Form

/-- How many of the lines right above hold nothing but `import`; blank lines do not count. -/
def bareImports (above : List String) : Nat :=
  (((above.map trimEnd).filter (· != "")).reverse.takeWhile (· == "import")).length

theorem bareImports_concat (above : List String) (line : String) :
    bareImports (above ++ [line]) =
      if trimEnd line = "" then bareImports above
      else if trimEnd line = "import" then bareImports above + 1 else 0 := by
  rw [bareImports, List.map_append, List.filter_append, List.reverse_append]
  by_cases hblank : trimEnd line = ""
  · simp [hblank, bareImports]
  · by_cases hbare : trimEnd line = "import"
    · simp [hbare, bareImports]
    · simp [hblank, hbare]

section Forms
open Form

def fromForm : Form := .between "from".toList "import".toList

def lineForm : Form := .line "import".toList

def renamedForm : Form := .between "import".toList "as".toList

theorem forms_eq : forms = [fromForm, lineForm, renamedForm] := rfl

variable (before : Words) (name g : List Char) (qs : Words)

def importWord : List Char × List Char := ("import".toList, [' '])

theorem taken_from : fromForm.taken (importWord :: before) ((name, g) :: qs) = false := rfl

theorem taken_line : lineForm.taken (importWord :: before) ((name, g) :: qs) =
    (atStart before && !lineForm.taken before (importWord :: (name, g) :: qs)) := by
  have hopens (start : Bool) : lineForm.opens start "import".toList = start := by
    cases start <;> decide
  have hfollows : lineForm.follows [' '] ((name, g) :: qs) = true := by
    change [' '].all isBlank = true
    decide
  rw [importWord, taken, hopens, hfollows, Bool.and_true]

theorem taken_renamed : renamedForm.taken (importWord :: before) ((name, g) :: qs) =
    (g.all isBlank && "as".toList.isPrefixOf (first qs) &&
      !renamedForm.taken before (importWord :: (name, g) :: qs)) := by
  have hopens (start : Bool) : renamedForm.opens start "import".toList = true := by
    cases start <;> decide
  have hspace : [' '].all isBlank = true := by decide
  rw [importWord, taken, hopens, Bool.true_and, renamedForm, follows, hspace, Bool.true_and]

end Forms

section Above
open Form
variable {bs : List Char} {ps : Words}

def textAbove (above : List String) : List Char := above.flatMap fun l => l.toList ++ ['\n']

theorem atStart_iff (h : Leads ps) :
    atStart ps.reverse = true ↔ ∀ c ∈ (spell ps).getLast?, c = '\n' := by
  cases h with
  | nil => simp [atStart]
  | @snoc ps w g ht hne => simp [atStart, endsLine, List.getLast?_eq_some_getLast hne]

theorem taken_line_congr (before : Words) (p q : List Char × List Char) (ps qs : Words) :
    lineForm.taken before (p :: ps) = lineForm.taken before (q :: qs) := by
  have hb : lineForm.Blurs (p :: ps) (q :: qs) := ⟨fun _ => rfl, fun _ _ => rfl⟩
  exact hb.taken_eq before

theorem Words.Leads.extend (h : Leads ps) (hne : bs ≠ [])
    (hb : ∀ c ∈ bs, isBlank c = true) : ∃ qs, Leads qs ∧ spell qs = spell ps ++ bs ∧ ∀ p ahead,
      lineForm.taken qs.reverse (p :: ahead) = lineForm.taken ps.reverse (p :: ahead) := by
  have hgap (c : Char) (hc : c ∈ bs) : isNamePart c = false := not_namePart_of_blank (hb c hc)
  cases h with
  | nil =>
    have hone : Leads ([] ++ [([], bs)]) := .snoc (.single (List.forall_mem_nil _) hgap) hne
    exact ⟨_, hone, by simp, fun p ahead => rfl⟩
  | @snoc ps w g ht hg =>
    have hwide : Tiled (ps ++ [(w, g ++ bs)]) :=
      ht.replace_last fun c hc => (List.mem_append.mp hc).elim (ht.last.gap c) (hgap c)
    refine ⟨_, .snoc hwide (by simp [hg]), by simp, fun p ahead => ?_⟩
    have hall : bs.all isBlank = true := List.all_eq_true.mpr hb
    simp only [List.reverse_append, List.reverse_singleton, List.singleton_append, taken,
      taken_line_congr _ (w, g ++ bs) (w, g) _ (p :: ahead)]
    simp [follows, lineForm, hall]

theorem Words.Leads.bare (h : Leads ps) (hstart : atStart ps.reverse = true)
    (hne : bs ≠ []) (hb : ∀ c ∈ bs, isBlank c = true) :
    Leads (ps ++ [("import".toList, bs)]) ∧ ∀ p ahead,
      lineForm.taken (ps ++ [("import".toList, bs)]).reverse (p :: ahead) =
        !lineForm.taken ps.reverse (p :: ahead) := by
  have hgap (c : Char) (hc : c ∈ bs) : isNamePart c = false := not_namePart_of_blank (hb c hc)
  refine ⟨.snoc (h.tiled (.single isName_import.2 hgap) isName_import.1) hne, fun p ahead => ?_⟩
  have hall : bs.all isBlank = true := List.all_eq_true.mpr hb
  simp only [List.reverse_append, List.reverse_singleton, List.singleton_append, taken, hstart,
    taken_line_congr _ ("import".toList, bs) p _ ahead]
  simp only [opens, follows, lineForm, hall, beq_self_eq_true, Bool.and_self, Bool.true_and]

theorem textAbove_concat (above : List String) (line : String) :
    textAbove (above ++ [line]) = textAbove above ++ (line.toList ++ ['\n']) := by
  simp [textAbove]

theorem textAbove_ends (above : List String) : ∀ c ∈ (textAbove above).getLast?, c = '\n' := by
  rcases above.eq_nil_or_concat with rfl | ⟨above, line, rfl⟩
  · simp [textAbove]
  · simp [textAbove]

private theorem trimEnd_ends (s : String) : ∀ c ∈
    (trimEnd s).toList.getLast?, isBlank c = false := by
  intro c hc
  rw [trimEnd_toList] at hc
  have hne : s.toList.rdropWhile isBlank ≠ [] := by
    intro he
    rw [he] at hc
    cases hc
  have hlast := List.rdropWhile_last_not isBlank s.toList hne
  rw [List.getLast?_eq_some_getLast hne] at hc
  cases hc
  simpa using hlast

theorem rdropWhile_append_blanks (x : List Char)
    (hb : ∀ c ∈ bs, isBlank c = true) : (x ++ bs).rdropWhile isBlank = x.rdropWhile isBlank := by
  rw [List.rdropWhile, List.reverse_append, List.dropWhile_append_of_pos (by simpa using hb)]
  rfl

theorem rdropWhile_blanks {x t bs : List Char} (hne : t ≠ [])
    (ht : ∀ c ∈ t.getLast?, isBlank c = false) (hb : ∀ c ∈ bs, isBlank c = true) :
    (x ++ t ++ bs).rdropWhile isBlank = x ++ t := by
  rw [rdropWhile_append_blanks _ hb, List.rdropWhile_eq_self_iff]
  intro hl
  rw [List.getLast_append_of_ne_nil hl hne, ht _ (List.getLast?_eq_some_getLast hne)]
  simp

theorem blank_feed (h : ∀ c ∈ bs, isBlank c = true) : ∀ c ∈ bs ++ ['\n'], isBlank c = true := by
  intro c hc
  rcases List.mem_append.mp hc with hc | hc
  · exact h c hc
  · rw [List.mem_singleton.mp hc]
    decide

private theorem eq_behind_feed {x y s t : List Char} (hx : ∀ c ∈ x.getLast?, c = '\n')
    (hy : ∀ c ∈ y.getLast?, c = '\n') (hs : '\n' ∉ s) (ht : '\n' ∉ t) (h : x ++ s = y ++ t) :
    s = t := by
  have hshort {a b c : List Char} (ha : ∀ d ∈ (c ++ a).getLast?, d = '\n') (hno : '\n' ∉ a ++ b) :
      a ++ b = b := by
    rcases a.eq_nil_or_concat with rfl | ⟨a, d, rfl⟩
    · rfl
    · obtain rfl : d = '\n' := ha d (by simp)
      exact absurd (by simp) hno
  rcases List.append_eq_append_iff.mp h with ⟨a, rfl, rfl⟩ | ⟨a, rfl, rfl⟩
  · exact hshort hy hs
  · exact (hshort hx ht).symm

/-- A line that is neither blank nor a bare `import` ends with no keyword for the words ahead. -/
private theorem not_taken_behind {above : List String} {line : String} (hl : Unbroken line)
    (hsolid : trimEnd line ≠ "") (hother : trimEnd line ≠ "import") (hps : Leads ps)
    (hspell : spell ps = textAbove (above ++ [line])) (ahead : Words) :
    lineForm.taken ps.reverse ahead = false := by
  cases hps with
  | nil => rfl
  | @snoc ps w g ht hne =>
    by_contra htaken
    simp only [List.reverse_append, List.reverse_singleton, List.singleton_append, taken,
      Bool.not_eq_false, Bool.and_eq_true] at htaken
    obtain ⟨⟨hopens, hfollows⟩, -⟩ := htaken
    obtain ⟨hstart, hw⟩ : atStart ps.reverse = true ∧ w = "import".toList := by
      simpa [opens, lineForm] using hopens
    have hg : ∀ c ∈ g, isBlank c = true := by
      cases ahead with
      | nil => cases hfollows
      | cons p ahead => simpa [follows, lineForm] using hfollows
    subst hw
    obtain ⟨bs, hbs, hline⟩ := exists_trimEnd line
    have hsame : textAbove above ++ (trimEnd line).toList ++ (bs ++ ['\n']) =
        spell ps ++ "import".toList ++ g := by
      rw [textAbove_concat, hline] at hspell
      simpa using hspell.symm
    -- Without the blanks at the end, both sides end with their last line.
    have htrim := congrArg (List.rdropWhile isBlank) hsame
    have himport : ∀ c ∈ "import".toList.getLast?, isBlank c = false := by
      rintro c ⟨⟩
      decide
    rw [rdropWhile_blanks (by simpa using hsolid) (trimEnd_ends line) (blank_feed hbs),
      rdropWhile_blanks (by decide) himport hg] at htrim
    have hbare := eq_behind_feed (textAbove_ends above) ((atStart_iff ht.init.1).mp hstart)
      hl.trimEnd (by decide) htrim
    exact hother (String.toList_inj.mp hbare)

/-- The lines above take the next word for a module, if they end with an odd number of bare
imports. -/
private theorem exists_leads_above (above : List String) (hl : ∀ l ∈ above, Unbroken l) :
    ∃ ps, Leads ps ∧ spell ps = textAbove above ∧
      ∀ p ahead, lineForm.taken ps.reverse (p :: ahead) = (bareImports above % 2 == 1) := by
  induction above using List.reverseRecOn with
  | nil => exact ⟨[], .nil, rfl, fun p ahead => rfl⟩
  | append_singleton above line ih =>
    obtain ⟨ps, hps, hspell, htaken⟩ := ih fun l hm => hl l (List.mem_append_left _ hm)
    obtain ⟨bs, hbs, hline⟩ := exists_trimEnd line
    have hblank := blank_feed hbs
    rw [bareImports_concat, textAbove_concat, hline]
    split
    · rename_i hempty
      obtain ⟨qs, hqs, hout, hsame⟩ := hps.extend (by simp) hblank
      refine ⟨qs, hqs, by simpa [hempty, hspell] using hout, fun p ahead => ?_⟩
      rw [hsame, htaken]
    · split
      · rename_i hbare
        have hstart : atStart ps.reverse = true :=
          (atStart_iff hps).mpr (hspell ▸ textAbove_ends above)
        obtain ⟨hqs, hturned⟩ := hps.bare hstart (by simp) hblank
        have hodd (n : Nat) : ((n + 1) % 2 == 1) = !(n % 2 == 1) := by
          rcases Nat.mod_two_eq_zero_or_one n with h | h <;> simp [Nat.add_mod, h]
        refine ⟨_, hqs, by simp [hspell, hbare], fun p ahead => ?_⟩
        rw [hturned, htaken, hodd]
      · rename_i hsolid hother
        have hends : ∀ c ∈ (textAbove (above ++ [line])).getLast?, isNamePart c = false := by
          intro c hc
          rw [textAbove_ends _ c hc]
          decide
        obtain ⟨qs, hqs, hout⟩ := exists_leads hends
        have hlast : Unbroken line := hl line (by simp)
        refine ⟨qs, hqs, by rw [hout, textAbove_concat, hline], fun p ahead => ?_⟩
        rw [not_taken_behind hlast hsolid hother hqs hout]
        rfl

/-- With its indentation, a keyword on the next line opens an import just if it has none and is not
taken for a module. -/
theorem exists_leads_indent (above : List String) (hl : ∀ l ∈ above, Unbroken l) (indent : Nat) :
    ∃ ps, Leads ps ∧ spell ps = textAbove above ++ List.replicate indent ' ' ∧
      ∀ p ahead, (atStart ps.reverse && !lineForm.taken ps.reverse (p :: ahead)) =
        (indent == 0 && bareImports above % 2 == 0) := by
  obtain ⟨ps, hps, hspell, htaken⟩ := exists_leads_above above hl
  cases indent with
  | zero =>
    have hstart : atStart ps.reverse = true := (atStart_iff hps).mpr (hspell ▸ textAbove_ends above)
    refine ⟨ps, hps, by simpa using hspell, fun p ahead => ?_⟩
    rw [hstart, htaken]
    rcases Nat.mod_two_eq_zero_or_one (bareImports above) with h | h <;> simp [h]
  | succ indent =>
    have hblank : ∀ c ∈ List.replicate (indent + 1) ' ', isBlank c = true := by
      intro c hc
      rw [List.eq_of_mem_replicate hc]
      decide
    obtain ⟨qs, hqs, hout, -⟩ := hps.extend (by simp) hblank
    have hstart : atStart qs.reverse = false := by
      rw [Bool.eq_false_iff, ne_eq, atStart_iff hqs, hout]
      intro hfeed
      exact absurd (hfeed ' ' (by simp [List.getLast?_replicate])) (by decide)
    refine ⟨qs, hqs, by rw [hout, hspell], fun p ahead => ?_⟩
    rw [hstart]
    rfl

end Above

section Renamed
open Form

/-- A name ends a text without the blanks behind it just if it ends the last word, with nothing but
blanks behind. -/
theorem suffix_trimmed_iff {ps : Words} {u w g : List Char} (ht : Tiled (ps ++ [(w, g)]))
    (hu : IsName u) : u <:+ (spell (ps ++ [(w, g)])).rdropWhile isBlank ↔
      u <:+ w ∧ ∀ c ∈ g, isBlank c = true := by
  have hspell : spell (ps ++ [(w, g)]) = spell ps ++ w ++ g := by simp
  rw [hspell]
  by_cases hg : ∀ c ∈ g, isBlank c = true
  · rw [and_iff_left hg]
    by_cases hw : w = []
    · have hnone : (spell ps ++ w ++ g).rdropWhile isBlank = w := by
        rw [ht.init.2 hw, hw, spell_nil, List.append_nil, List.nil_append,
          List.rdropWhile_eq_nil_iff]
        exact hg
      rw [hnone]
    · have hend : ∀ c ∈ w.getLast?, isBlank c = false :=
        fun c hc => not_blank_of_namePart (ht.last.word c (List.mem_of_getLast? hc))
      rw [rdropWhile_blanks hw hend hg]
      refine ⟨?_, fun h => h.trans (List.suffix_append _ w)⟩
      rintro ⟨y, hy⟩
      rcases List.append_eq_append_iff.mp hy with ⟨a, ha, rfl⟩ | ⟨a, -, rfl⟩
      · -- The name would begin within the gap before the last word.
        rcases a.eq_nil_or_concat with rfl | ⟨a, c, rfl⟩
        · exact List.suffix_refl w
        · have hgap := ht.init.1.ends c (by simp [ha])
          rw [hu.2 c (by simp)] at hgap
          cases hgap
      · exact List.suffix_append a u
  · refine ⟨fun h => ?_, fun h => absurd h.2 hg⟩
    -- The text would end with a character of the gap.
    have hkept : g.rdropWhile isBlank ≠ [] := by rwa [ne_eq, List.rdropWhile_eq_nil_iff]
    have hout : (spell ps ++ w ++ g).rdropWhile isBlank =
        spell ps ++ w ++ g.rdropWhile isBlank := by
      rw [List.rdropWhile, List.reverse_append, List.dropWhile_append, if_neg (by
        simpa [List.rdropWhile] using hkept), List.reverse_append, List.reverse_reverse]
      rfl
    have hend : u.getLast hu.1 = (g.rdropWhile isBlank).getLast hkept := by
      rw [hout] at h
      rw [h.getLast hu.1, List.getLast_append_of_ne_nil _ hkept]
    have hgap : isNamePart (u.getLast hu.1) = false := by
      rw [hend]
      exact ht.last.gap _ ((List.rdropWhile_prefix isBlank g).subset (List.getLast_mem hkept))
    rw [hu.2 _ (List.getLast_mem hu.1)] at hgap
    cases hgap

theorem prefix_trimmed_iff {u g : List Char} {qs : Words} (ht : Tiled (([], g) :: qs))
    (hu : IsName u) : u <+: (g ++ spell qs).dropWhile isBlank ↔
      (∀ c ∈ g, isBlank c = true) ∧ u <+: first qs := by
  by_cases hg : ∀ c ∈ g, isBlank c = true
  · have hself : (spell qs).dropWhile isBlank = spell qs := by
      rw [List.dropWhile_eq_self_iff]
      intro hl
      have hname := ht.starts _ (List.head?_eq_getElem? ▸ List.getElem?_eq_getElem hl)
      simp [not_blank_of_namePart hname]
    rw [List.dropWhile_append_of_pos hg, hself, and_iff_right hg]
    cases qs with
    | nil => rfl
    | cons q qs => exact ht.tail.prefix_first hu.2
  · refine ⟨fun h => ?_, fun h => absurd h.1 hg⟩
    -- The text would begin with a character of the gap.
    have hkept : g.dropWhile isBlank ≠ [] := by rwa [ne_eq, List.dropWhile_eq_nil_iff]
    obtain ⟨d, a, hd⟩ := List.exists_cons_of_ne_nil hkept
    obtain ⟨e, u, rfl⟩ := List.exists_cons_of_ne_nil hu.1
    rw [List.dropWhile_append, if_neg (by simpa using hkept), hd, List.cons_append,
      List.cons_prefix_cons] at h
    have hgap : isNamePart d = false :=
      ht.gap d ((List.dropWhile_suffix isBlank).subset (hd ▸ List.mem_cons_self))
    rw [← h.1, hu.2 e List.mem_cons_self] at hgap
    cases hgap

theorem taken_renamed_iff {ps : Words} (hps : Leads ps) (name g : List Char) (qs : Words) :
    renamedForm.taken ps.reverse (("import".toList, [' ']) :: (name, g) :: qs) = true ↔
      "as".toList <+: name ∧ "import".toList <:+ (spell ps).rdropWhile isBlank := by
  -- No import takes a word before `import`, which does not begin with `as`.
  have hfree (before : Words) (p : List Char × List Char) (h : List Char) (rs : Words) :
      renamedForm.taken before (p :: ("import".toList, h) :: rs) = false := by
    cases before with
    | nil => rfl
    | cons q before => simp [taken, follows, renamedForm, first]
  cases hps with
  | nil => simp [taken]
  | @snoc ps w k ht hne =>
    rw [suffix_trimmed_iff ht isName_import, List.reverse_append, List.reverse_singleton,
      List.singleton_append, taken, hfree]
    have hspace : isBlank ' ' = true := by decide
    simp only [opens, follows, renamedForm, first, Bool.not_false, Bool.and_true, Bool.and_eq_true,
      List.isSuffixOf_iff_suffix, List.isPrefixOf_iff_prefix, List.all_eq_true,
      List.forall_mem_singleton, hspace, and_true]
    exact ⟨fun h => ⟨h.2.2, h.1, h.2.1⟩, fun h => ⟨h.2.1, h.2.2, h.1⟩⟩

end Renamed

def importLine (indent : Nat) (name : List Char) : String :=
  replicate indent ' ' ++ "import " ++ String.ofList name

/-- Whether the import of a module on a line of its own is read. The line is not indented, and its
keyword is not the module of a bare import above; or else the text below begins with `as`, and the
keyword is not a module that the text above imports under another name. -/
def isNoticed (above below : List String) (indent : Nat) (name : List Char) : Bool :=
  (indent == 0 && bareImports above % 2 == 0) ||
    (startsWith (trimStart (unlines below)) "as" &&
      !("as".toList.isPrefixOf name && endsWith (trimEnd (unlines above)) "import"))

section Line
open Form

def textBelow (below : List String) : List Char := below.flatMap fun l => '\n' :: l.toList

theorem textBelow_trimmed (below : List String) :
    (textBelow below).dropWhile isBlank = (trimStart (unlines below)).toList := by
  rw [trimStart_toList]
  cases below with
  | nil => rfl
  | cons line below =>
    have hfeed : isBlank '\n' = true := by decide
    rw [unlines_cons_toList, textBelow, List.flatMap_cons, List.cons_append,
      List.dropWhile_cons_of_pos hfeed]

private theorem textAbove_trimmed (above : List String) (indent : Nat) :
    (textAbove above ++ List.replicate indent ' ').rdropWhile isBlank =
      (trimEnd (unlines above)).toList := by
  have hspaces : ∀ c ∈ List.replicate indent ' ', isBlank c = true := by
    intro c hc
    rw [List.eq_of_mem_replicate hc]
    decide
  have hfeed : ∀ c ∈ ['\n'], isBlank c = true := forall_mem_of_all (by decide)
  rw [rdropWhile_append_blanks _ hspaces, trimEnd_toList]
  cases above with
  | nil => rfl
  | cons line above =>
    have htext : textAbove (line :: above) = (unlines (line :: above)).toList ++ ['\n'] := by
      rw [unlines_cons_toList]
      induction above generalizing line with
      | nil => simp [textAbove]
      | cons next above ih =>
        have hrest : textAbove (line :: next :: above) =
            line.toList ++ '\n' :: textAbove (next :: above) := by simp [textAbove]
        rw [hrest, ih]
        simp
    rw [htext, rdropWhile_append_blanks _ hfeed]

/-- How a text with an import on a line of its own is read: which words stand before and behind the
name, and that some form takes it for a module just if it is noticed. -/
theorem exists_words {above : List String} (hl : ∀ l ∈ above, Unbroken l) (below : List String)
    (indent : Nat) : ∃ (before : Words) (g : List Char) (qs : Words),
      (∀ name, IsName name → ofChars (textAbove above ++ (importLine indent name).toList ++
        textBelow below) = before.reverse ++ (name, g) :: qs) ∧ atStart before = false ∧
      ∀ name, (∃ f ∈ forms, f.taken before ((name, g) :: qs) = true) ↔
        isNoticed above below indent name = true := by
  obtain ⟨ps, hps, hspell, hline⟩ := exists_leads_indent above hl indent
  have hhead : ∀ c ∈ (textBelow below).head?, isNamePart c = false := by
    cases below with
    | nil => simp [textBelow]
    | cons line below =>
      rintro c ⟨⟩
      decide
  obtain ⟨g, qs, hpost⟩ := ofChars_gap hhead
  obtain ⟨htiled, htext⟩ := ofChars_eq_iff.mp hpost
  refine ⟨importWord :: ps.reverse, g, qs, fun name hname => ?_, rfl, fun name => ?_⟩
  · have hwords : Tiled (importWord :: (name, g) :: qs) :=
      .cons isName_import.2 (forall_mem_of_all (by decide)) (by simp) hname.1
        (htiled.replace hname.2)
    rw [ofChars_eq_iff, List.reverse_cons, List.reverse_reverse, List.append_assoc]
    refine ⟨hps.tiled hwords isName_import.1, ?_⟩
    rw [spell_append, hspell, ← htext]
    simp [importLine, importWord, replicate]
  · have hbelow : (g.all isBlank && "as".toList.isPrefixOf (first qs)) =
        startsWith (trimStart (unlines below)) "as" := by
      rw [startsWith, ← textBelow_trimmed, ← htext, spell_cons, List.nil_append, Bool.eq_iff_iff,
        List.isPrefixOf_iff_prefix, prefix_trimmed_iff htiled isName_as]
      simp
    have habove : renamedForm.taken ps.reverse (importWord :: (name, g) :: qs) =
        ("as".toList.isPrefixOf name && endsWith (trimEnd (unlines above)) "import") := by
      rw [Bool.eq_iff_iff, importWord, taken_renamed_iff hps, hspell, textAbove_trimmed, endsWith]
      simp
    rw [isNoticed, ← hline importWord ((name, g) :: qs), ← hbelow, ← habove, ← taken_line,
      ← taken_renamed, Bool.or_eq_true, forms_eq]
    simp only [List.mem_cons, List.not_mem_nil, or_false, exists_eq_or_imp, exists_eq_left,
      taken_from, Bool.false_eq_true, false_or]

end Line

section Cut
open Form

theorem blurs_cut {f : Form} (hf : f ∈ forms) (base more g : List Char) (qs : Words) :
    f.Blurs ((base ++ '_' :: more, g) :: qs) ((base, g) :: qs) := by
  have hkeyword {a : List Char} (ha : '_' ∉ a) :
      a.isPrefixOf (base ++ '_' :: more) = a.isPrefixOf base := by
    rw [Bool.eq_iff_iff, List.isPrefixOf_iff_prefix, List.isPrefixOf_iff_prefix]
    exact ⟨prefix_of_separated ha, fun h => h.trans (List.prefix_append base _)⟩
  simp only [forms_eq, List.mem_cons, List.not_mem_nil, or_false] at hf
  rcases hf with rfl | rfl | rfl
  · refine ⟨fun k => rfl, fun k p => ?_⟩
    simp only [Form.follows, fromForm, first, hkeyword (a := "import".toList) (by decide)]
  · exact ⟨fun k => rfl, fun k p => rfl⟩
  · refine ⟨fun k => rfl, fun k p => ?_⟩
    simp only [Form.follows, renamedForm, first, hkeyword (a := "as".toList) (by decide)]

private theorem importCut_congr {source fixed other : String} {order : Arrangement}
    (h : ∀ m, m ∈ scriptImports fixed ↔ m ∈ scriptImports other) :
    importCut? (some .python) source fixed order = none ↔
      importCut? (some .python) source other order = none := by
  rw [importCut?, importCut?, scriptCut_eq_none_iff, scriptCut_eq_none_iff]
  simp only [h]

variable {f : Form} (hf : f ∈ forms) {before qs : Words} {base g : List Char} (more : List Char)
include hf

private theorem mem_scan_of_taken (h : f.taken before ((base, g) :: qs) = true) :
    base ++ '_' :: more ∈ f.scan true (before.reverse ++ (base ++ '_' :: more, g) :: qs) ∧
      base ∈ f.scan true (before.reverse ++ (base, g) :: qs) := by
  have hb := blurs_cut hf base more g qs
  obtain ⟨out, hfull, hcut⟩ := scan_reaches hb before
  rw [hfull, hcut, resume, resume, hb.taken_eq, if_pos h, if_pos h]
  simp

/-- A name that is not taken for a module, and does not end like a keyword, can be cut unseen. -/
private theorem scan_eq_of_not_taken (h : f.taken before ((base, g) :: qs) = false)
    (hk : endsInKeyword (base ++ '_' :: more) = false) (hkb : endsInKeyword base = false) :
    f.scan true (before.reverse ++ (base ++ '_' :: more, g) :: qs) =
      f.scan true (before.reverse ++ (base, g) :: qs) := by
  have hb := blurs_cut hf base more g qs
  obtain ⟨out, hfull, hcut⟩ := scan_reaches hb before
  rw [hfull, hcut, resume, resume, hb.taken_eq, if_neg (by simp [h]), if_neg (by simp [h]),
    scan_skip (opens_eq_false hf hk _), scan_skip (opens_eq_false hf hkb _)]

omit hf
variable {source fixed : String} {order : Arrangement} {more : List Char}
  (hfull : ofChars source.toList = before.reverse ++ (base ++ '_' :: more, g) :: qs)
  (hcut : ofChars fixed.toList = before.reverse ++ (base, g) :: qs)
include hfull hcut

private theorem cut_refused (h : ∃ f ∈ forms, f.taken before ((base, g) :: qs) = true) :
    importCut? (some .python) source fixed order ≠ none := by
  obtain ⟨f, hf, htaken⟩ := h
  obtain ⟨hm, hb⟩ := mem_scan_of_taken hf more htaken
  rw [importCut?, ne_eq, scriptCut_eq_none_iff]
  intro hno
  refine hno (String.ofList (base ++ '_' :: more)) ?_ (String.ofList base) ?_ ?_
  · exact mem_scriptImports.mpr ⟨f, hf, _, hfull ▸ hm, rfl⟩
  · exact mem_scriptImports.mpr ⟨f, hf, _, hcut ▸ hb, rfl⟩
  · exact continues_iff.mpr ⟨'_', more, by simp, .inl rfl⟩

private theorem cut_unseen (h : ¬ ∃ f ∈ forms, f.taken before ((base, g) :: qs) = true)
    (hk : endsInKeyword (base ++ '_' :: more) = false) (hkb : endsInKeyword base = false) :
    importCut? (some .python) source fixed order = none ↔
      importCut? (some .python) source source order = none := by
  refine importCut_congr fun m => ?_
  rw [mem_scriptImports, mem_scriptImports, hfull, hcut]
  refine exists_congr fun f => and_congr_right fun hf => ?_
  have hfree : f.taken before ((base, g) :: qs) = false := by
    rw [Bool.eq_false_iff]
    exact fun ht => h ⟨f, hf, ht⟩
  rw [scan_eq_of_not_taken hf more hfree hk hkb]

end Cut

/-- Which cut imports are noticed. The name of a module that is imported on a line of its own is cut
at an underscore. The cut is refused if the import is noticed; and where the names do not end like
keywords, an import that is not noticed is refused only if its text would be refused unchanged. -/
theorem cut_import_noticed_iff {source : String} {i indent : Nat} {base more : List Char}
    (order : Arrangement)
    (hi : (lines source)[i]? = some (importLine indent (base ++ '_' :: more)))
    (hbase : base ≠ []) (hname : ∀ c ∈ base ++ '_' :: more, isNamePart c = true) :
    let fixed := unlines ((lines source).set i (importLine indent base))
    let noticed := isNoticed ((lines source).take i) ((lines source).drop (i + 1)) indent base
    (noticed = true → importCut? (some .python) source fixed order ≠ none) ∧
    (endsInKeyword (base ++ '_' :: more) = false → endsInKeyword base = false →
      (importCut? (some .python) source fixed order ≠ none ↔
        noticed = true ∨ importCut? (some .python) source source order ≠ none)) := by
  intro fixed noticed
  have hl : ∀ l ∈ (lines source).take i, Unbroken l :=
    fun l hm => .of_mem_lines (List.mem_of_mem_take hm)
  obtain ⟨before, g, qs, hwords, hstart, hnoticed⟩ :=
    exists_words hl ((lines source).drop (i + 1)) indent
  have hfull : ofChars source.toList = before.reverse ++ (base ++ '_' :: more, g) :: qs := by
    rw [← hwords _ ⟨by simp, hname⟩, ← unlines_lines source, unlines_toList_of_getElem? hi]
    simp only [unlines_lines]
    rfl
  have hcut : ofChars fixed.toList = before.reverse ++ (base, g) :: qs := by
    rw [← hwords _ ⟨hbase, fun c hc => hname c (List.mem_append_left _ hc)⟩,
      unlines_set_toList (List.getElem?_eq_some_iff.mp hi).1]
    rfl
  refine ⟨fun h => cut_refused hfull hcut ((hnoticed base).mpr h), fun hk hkb => ?_⟩
  by_cases hn : noticed = true
  · exact ⟨fun _ => .inl hn, fun _ => cut_refused hfull hcut ((hnoticed base).mpr hn)⟩
  · have hfree := mt (hnoticed base).mp hn
    rw [or_iff_right hn, ne_eq, ne_eq, cut_unseen hfull hcut hfree hk hkb]

/-- The cut of an indented import goes unseen. That of the same import without indentation does not,
and neither does that of an indented one above a line that begins with `as`. -/
theorem indented_cut_unseen :
    importCut? (some .python) "    import step1_parsing" "    import step1" = none ∧
      importCut? (some .python) "import step1_parsing" "import step1" ≠ none ∧
      importCut? (some .python) "    import step1_parsing\nassert x" "    import step1\nassert x" ≠
        none := by
  have hname : ∀ c ∈ "step1".toList ++ '_' :: "parsing".toList, isNamePart c = true :=
    forall_mem_of_all (by decide)
  have hindented : (lines "    import step1_parsing")[0]? =
      some (importLine 4 ("step1".toList ++ '_' :: "parsing".toList)) := by decide
  have hplain : (lines "import step1_parsing")[0]? =
      some (importLine 0 ("step1".toList ++ '_' :: "parsing".toList)) := by decide
  have habove : (lines "    import step1_parsing\nassert x")[0]? =
      some (importLine 4 ("step1".toList ++ '_' :: "parsing".toList)) := by decide
  have hnone : scriptImports "    import step1_parsing" = [] :=
    sorted_eq (by decide +kernel) (by decide)
  have hclean : importCut? (some .python) "    import step1_parsing" "    import step1_parsing" =
      none := by
    rw [importCut?, scriptCut_eq_none_iff, hnone]
    exact fun full hfull => absurd hfull List.not_mem_nil
  refine ⟨?_, (cut_import_noticed_iff .byName hplain (by decide) hname).1 (by decide),
    (cut_import_noticed_iff .byName habove (by decide) hname).1 (by decide)⟩
  by_contra hrefused
  rcases ((cut_import_noticed_iff .byName hindented (by decide) hname).2 (by decide) (by decide)).mp
    hrefused with hn | hn
  · exact absurd hn (by decide)
  · exact hn hclean

end Mender.Review
