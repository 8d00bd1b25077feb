import Mender.Proofs.Closing
import Mender.Proofs.Comment
import Mender.Proofs.LeadingImport
import Mender.Proofs.Renaming
import Mender.Proofs.Suggestion
import Mender.Rule.Script

/-! The removal of unused imports. A report of an unused name takes every line with `import` and a
space before a name that begins with it. Main statement: this takes nothing else away just if each
such line imports the name, and each other name that it imports is imported on a line that stays.
Imports are read word by word, outside of literals and comments. -/
namespace Mender.Pattern

theorem Matches.seq {a b : Pattern} {s u t : Cursor} (ha : a.Matches s u) (hb : b.Matches u t) :
    (Pattern.seq a b).Matches s t := ⟨u, ha, hb⟩

theorem matches_spelled_of {w : List Char} {q : Pattern} {s u t : Cursor} (hw : s.Reads w u)
    (hq : q.Matches u t) : (spelled w q).Matches s t := by
  induction w generalizing s with
  | nil =>
    obtain rfl := hw.eq_of_nil
    exact hq
  | cons c w ih =>
    obtain ⟨v, hv, hrest⟩ := Cursor.Reads.split (v := [c]) hw
    exact ⟨v, matches_char.mpr ⟨c, by simp [CharClass.holds], hv⟩, ih hrest⟩

theorem matches_plus_of {c : CharClass} {w : List Char} {s t : Cursor} (hne : w ≠ [])
    (hw : ∀ x ∈ w, c.holds x = true) (h : s.Reads w t) : (plus c).Matches s t := by
  obtain ⟨x, w, rfl⟩ := List.exists_cons_of_ne_nil hne
  obtain ⟨u, hu, ht⟩ := Cursor.Reads.split (v := [x]) h
  exact ⟨u, matches_char.mpr ⟨x, hw x List.mem_cons_self, hu⟩,
    matches_many_char.mpr ⟨w, fun y hy => hw y (List.mem_cons_of_mem x hy), ht⟩⟩

end Mender.Pattern

namespace Mender.Repair
open Text Pattern Review Dependency

def visible : LiteralScan → List Char → List Char
  | _, [] => []
  | s, c :: cs =>
    if s = .outside ∧ c = '#' then []
    else if s = .outside ∧ s.step c = .outside then c :: visible .outside cs
    else visible (s.step c) cs

/-- A mark as a word of its own; brackets and the sign of a continued line count as blanks. -/
def apart (c : Char) : List Char :=
  if [',', ';', ':'].contains c then [' ', c, ' ']
  else if ['(', ')', '\\'].contains c then [' ']
  else [c]

def tokens (line : String) : List String :=
  (wordChars ((visible .outside line.toList).flatMap apart)).map String.ofList

inductive Part where
  | start
  | origin
  | item
  | named
  | other
  deriving Repr, DecidableEq

namespace Part

/-- Reads one token: where the reading is behind it, and the name that is imported with it. -/
def step (p : Part) (token : String) : Part × Option String :=
  if token = ";" || token = ":" then (.start, none)
  else match p with
    | .start =>
      (if token = "import" then .item else if token = "from" then .origin else .other, none)
    | .origin => (if token = "import" then .item else .origin, none)
    | .item => if token = "," then (.item, none) else (.named, some token)
    | .named => (if token = "," then .item else .named, none)
    | .other => (.other, none)

def names : Part → List String → List String
  | _, [] => []
  | p, token :: rest => (p.step token).2.toList ++ (p.step token).1.names rest

end Part

def imports (line : String) : List String := Part.start.names (tokens line)

section Reading
variable {cs : List Char} {line m : String} {ms : List String}

theorem visible_eq_self (h : ∀ c ∈ cs, isQuote c = false ∧ c ≠ '#') :
    visible .outside cs = cs := by
  induction cs with
  | nil => rfl
  | cons c cs ih =>
    obtain ⟨hq, hc⟩ := h c List.mem_cons_self
    have hstep : LiteralScan.outside.step c = .outside := by simp [LiteralScan.step, hq]
    simp [visible, hc, hstep, ih fun d hd => h d (List.mem_cons_of_mem c hd)]

theorem flatMap_apart (h : ∀ c ∈ cs, c ∉ [',', ';', ':', '(', ')', '\\']) :
    cs.flatMap apart = cs := by
  induction cs with
  | nil => rfl
  | cons c cs ih =>
    have hc : apart c = [c] := by
      have hno := h c List.mem_cons_self
      simp only [List.mem_cons, List.not_mem_nil, or_false, not_or] at hno
      simp [apart, hno]
    rw [List.flatMap_cons, hc, ih fun d hd => h d (List.mem_cons_of_mem c hd)]
    rfl

def isPlain (c : Char) : Bool := isNamePart c || isBlank c

theorem isPlain_spec {c : Char} (h : isPlain c = true) :
    (isQuote c = false ∧ c ≠ '#') ∧ c ∉ [',', ';', ':', '(', ')', '\\'] := by
  have hmark : ∀ d ∈ ['"', '\'', '#', ',', ';', ':', '(', ')', '\\'], isPlain d = false :=
    forall_mem_of_all (by decide)
  have hne : c ∉ ['"', '\'', '#', ',', ';', ':', '(', ')', '\\'] := by
    intro hm
    rw [hmark c hm] at h
    cases h
  simp only [List.mem_cons, List.not_mem_nil, or_false, not_or] at hne
  simp [isQuote, hne]

private theorem ne_mark_of_isName {n mark : String} (h : Review.IsName n.toList)
    (hm : mark.toList.all (isNamePart ·) = false) : n ≠ mark := by
  rintro rfl
  rw [List.all_eq_true.mpr h.2] at hm
  cases hm

theorem step_name {n : String} (h : Review.IsName n.toList) :
    Part.item.step n = (.named, some n) := by
  have hsemicolon : n ≠ ";" := ne_mark_of_isName h (by decide)
  have hcolon : n ≠ ":" := ne_mark_of_isName h (by decide)
  have hcomma : n ≠ "," := ne_mark_of_isName h (by decide)
  simp [Part.step, hsemicolon, hcolon, hcomma]

theorem names_list (h : ∀ n ∈ ms, Review.IsName n.toList) :
    Part.named.names (ms.flatMap fun n => [",", n]) = ms := by
  induction ms with
  | nil => rfl
  | cons n ms ih =>
    obtain ⟨hn, hms⟩ := List.forall_mem_cons.mp h
    have hcomma : Part.named.step "," = (.item, none) := rfl
    change Part.named.names ("," :: n :: ms.flatMap fun n => [",", n]) = n :: ms
    simp [Part.names, hcomma, step_name hn, ih hms]

theorem wordChars_pieces (x : List Char) (ps : List String) :
    wordChars (x ++ ps.flatMap fun p => ' ' :: ',' :: ' ' :: p.toList) =
      wordChars x ++ ps.flatMap fun p => [','] :: wordChars p.toList := by
  have hspace : isBlank ' ' = true := by decide
  have hmark : wordChars [','] = [[',']] := by decide
  induction ps generalizing x with
  | nil => simp
  | cons p ps ih =>
    have hp : (p :: ps).flatMap (fun p => ' ' :: ',' :: ' ' :: p.toList) = ' ' :: ([','] ++
        ' ' :: (p.toList ++ ps.flatMap fun p => ' ' :: ',' :: ' ' :: p.toList)) := by simp
    rw [hp, wordChars_append hspace, wordChars_append hspace, hmark, ih]
    simp

theorem isPlain_of_blank (h : ∀ c ∈ cs, isBlank c = true) : ∀ c ∈ cs, isPlain c = true :=
  fun c hc => by rw [isPlain, h c hc, Bool.or_true]

theorem isPlain_of_isName (h : Review.IsName cs) : ∀ c ∈ cs, isPlain c = true :=
  fun c hc => by rw [isPlain, h.2 c hc, Bool.true_or]

theorem isPlain_piece {q : String} (h : Review.IsName (trim q).toList) :
    ∀ c ∈ q.toList, isPlain c = true := by
  obtain ⟨as, bs, has, hbs, hq⟩ := exists_trim q
  intro c hc
  rw [hq, List.mem_append, List.mem_append] at hc
  rcases hc with (hc | hc) | hc
  · exact isPlain_of_blank has c hc
  · exact isPlain_of_isName h c hc
  · exact isPlain_of_blank hbs c hc

section Pieces
variable {x : List Char} {ps : List String} (hx : ∀ c ∈ x, isPlain c = true)
  (hps : ∀ q ∈ ps, Review.IsName (trim q).toList)

include hx hps

private theorem visible_pieces : visible .outside (x ++ ps.flatMap (',' :: ·.toList)) =
    x ++ ps.flatMap (',' :: ·.toList) := by
  refine visible_eq_self fun c hc => ?_
  rcases List.mem_append.mp hc with hc | hc
  · exact (isPlain_spec (hx c hc)).1
  · obtain ⟨q, hq, hc⟩ := List.mem_flatMap.mp hc
    rcases List.mem_cons.mp hc with rfl | hc
    · decide
    · exact (isPlain_spec (isPlain_piece (hps q hq) c hc)).1

private theorem apart_pieces : (x ++ ps.flatMap (',' :: ·.toList)).flatMap apart =
    x ++ ps.flatMap fun q => ' ' :: ',' :: ' ' :: q.toList := by
  rw [List.flatMap_append, flatMap_apart fun c hc => (isPlain_spec (hx c hc)).2, List.flatMap_assoc]
  refine congrArg (x ++ ·) (List.flatMap_congr fun q hq => ?_)
  have hq' : q.toList.flatMap apart = q.toList :=
    flatMap_apart fun c hc => (isPlain_spec (isPlain_piece (hps q hq) c hc)).2
  rw [List.flatMap_cons, hq']
  rfl

end Pieces

theorem solid_of_isName {w : List Char} (h : Review.IsName w) : ∀ c ∈ w, isBlank c = false :=
  fun c hc => not_blank_of_namePart (h.2 c hc)

theorem wordChars_piece {q : String} (h : Review.IsName (trim q).toList) :
    wordChars q.toList = [(trim q).toList] := by
  obtain ⟨as, bs, has, hbs, hq⟩ := exists_trim q
  rw [hq, List.append_assoc, wordChars_blanks has,
    wordChars_word_blanks h.1 (solid_of_isName h) hbs]

private theorem tokens_list (h : ListsModules line (m :: ms)) :
    tokens line = "import" :: m :: ms.flatMap fun n => [",", n] := by
  obtain ⟨indent, gap, bs, ps, hline, hi, hgap, hne, hbs, rfl⟩ := h.exists_split
  obtain ⟨hm, hms⟩ := List.forall_mem_cons.mp h.names
  have hps : ∀ q ∈ ps, Review.IsName (trim q).toList := fun q hq => hms _ (List.mem_map_of_mem hq)
  have hhead : ∀ c ∈ indent ++ ("import".toList ++ (gap ++ (m.toList ++ bs))),
      isPlain c = true := by
    simp only [List.mem_append]
    rintro c (hc | hc | hc | hc | hc)
    · exact isPlain_of_blank hi c hc
    · exact isPlain_of_isName isName_import c hc
    · exact isPlain_of_blank hgap c hc
    · exact isPlain_of_isName hm c hc
    · exact isPlain_of_blank hbs c hc
  have hwords : wordChars (indent ++ ("import".toList ++ (gap ++ (m.toList ++ bs)))) =
      ["import".toList, m.toList] := by
    rw [wordChars_first hi isName_import.1 (solid_of_isName isName_import) hgap hne,
      wordChars_word_blanks hm.1 (solid_of_isName hm) hbs]
  have hpieces : ps.flatMap (fun q => [','] :: wordChars q.toList) =
      ps.flatMap fun q => [[','], (trim q).toList] :=
    List.flatMap_congr fun q hq => congrArg ([','] :: ·) (wordChars_piece (hps q hq))
  rw [tokens, hline, visible_pieces hhead hps, apart_pieces hhead hps, wordChars_pieces, hpieces,
    hwords]
  simp [List.map_flatMap, List.flatMap_map]

theorem imports_list (h : ListsModules line (m :: ms)) : imports line = m :: ms := by
  obtain ⟨hm, hms⟩ := List.forall_mem_cons.mp h.names
  have hstart : Part.start.step "import" = (.item, none) := rfl
  rw [imports, tokens_list h]
  simp [Part.names, hstart, step_name hm, names_list hms]

end Reading

section Occurrence
variable {u v cs : List Char}

theorem words_of_keyed (hu : u ≠ []) (hv : v ≠ []) (hub : ∀ c ∈ u, isBlank c = false)
    (hvb : ∀ c ∈ v, isBlank c = false) (h : Review.keyed u v <:+: cs) :
    ∃ pre post, cs = (pre ++ u) ++ ' ' :: (v ++ post) ∧
      wordChars cs = wordChars (pre ++ u) ++ wordChars (v ++ post) ∧
      wordChars (pre ++ u) ≠ [] ∧ wordChars (v ++ post) ≠ [] := by
  obtain ⟨pre, post, rfl⟩ := h
  have hsplit : pre ++ Review.keyed u v ++ post = (pre ++ u) ++ ' ' :: (v ++ post) := by
    simp [Review.keyed]
  refine ⟨pre, post, hsplit, ?_, ?_, ?_⟩
  · rw [hsplit, wordChars_append (by decide)]
  · obtain ⟨c, hc⟩ := List.exists_mem_of_ne_nil u hu
    exact wordChars_ne_nil (List.mem_append_right pre hc) (hub c hc)
  · obtain ⟨c, hc⟩ := List.exists_mem_of_ne_nil v hv
    exact wordChars_ne_nil (List.mem_append_left post hc) (hvb c hc)

theorem infix_piece {ds x : List Char} {ps : List String} (hc : ',' ∉ ds)
    (h : ds <:+: x ++ ps.flatMap (',' :: ·.toList)) : ds <:+: x ∨ ∃ q ∈ ps, ds <:+: q.toList := by
  induction ps generalizing x with
  | nil => exact .inl (by simpa using h)
  | cons q ps ih =>
    rw [List.flatMap_cons, List.cons_append] at h
    rcases infix_or_infix hc h with hx | hq
    · exact .inl hx
    · rcases ih hq with hq | ⟨p, hp, hd⟩
      · exact .inr ⟨q, List.mem_cons_self, hq⟩
      · exact .inr ⟨p, List.mem_cons_of_mem q hp, hd⟩

private theorem eq_of_append_eq_pair {α : Type} {xs ys : List α} {a b : α} (h : xs ++ ys = [a, b])
    (hx : xs ≠ []) (hy : ys ≠ []) : xs = [a] ∧ ys = [b] := by
  obtain ⟨x, xs, rfl⟩ := List.exists_cons_of_ne_nil hx
  obtain ⟨y, ys, rfl⟩ := List.exists_cons_of_ne_nil hy
  obtain ⟨rfl, hrest⟩ := List.cons.inj h
  cases xs with
  | nil => exact ⟨rfl, hrest⟩
  | cons z xs => simp at hrest

private theorem filter_solid {w : List Char} (h : ∀ c ∈ w, isBlank c = false) :
    w.filter (!isBlank ·) = w := List.filter_eq_self.mpr fun c hc => by simp [h c hc]

theorem dropWhile_solid {b w : List Char} (hb : ∀ c ∈ b, isBlank c = true) (hne : w ≠ [])
    (hw : ∀ c ∈ w, isBlank c = false) (r : List Char) :
    (b ++ (w ++ r)).dropWhile isBlank = w ++ r := by
  obtain ⟨c, w, rfl⟩ := List.exists_cons_of_ne_nil hne
  rw [List.dropWhile_append_of_pos hb, List.cons_append, List.dropWhile_cons_of_neg]
  simp [hw c List.mem_cons_self]

/-- Where a keyword and a name make up a text, the keyword, a space and a text stand in it just if
the space is all between the keyword and the name, and the name begins with the text. -/
theorem keyed_infix_iff {indent gap w m bs x : List Char} (hi : ∀ c ∈ indent, isBlank c = true)
    (hgap : ∀ c ∈ gap, isBlank c = true) (hne : gap ≠ []) (hbs : ∀ c ∈ bs, isBlank c = true)
    (hw : w ≠ [] ∧ ∀ c ∈ w, isBlank c = false) (hm : m ≠ [] ∧ ∀ c ∈ m, isBlank c = false)
    (hx : x ≠ [] ∧ ∀ c ∈ x, isBlank c = false) :
    Review.keyed w x <:+: indent ++ (w ++ (gap ++ (m ++ bs))) ↔ gap = [' '] ∧ x <+: m := by
  constructor
  · intro h
    have hwords : wordChars (indent ++ (w ++ (gap ++ (m ++ bs)))) = [w, m] := by
      rw [wordChars_first hi hw.1 hw.2 hgap hne, wordChars_word_blanks hm.1 hm.2 hbs]
    obtain ⟨pre, post, hcs, hsplit, hpre, hpost⟩ := words_of_keyed hw.1 hx.1 hw.2 hx.2 h
    obtain ⟨hfirst, hsecond⟩ : wordChars (pre ++ w) = [w] ∧ wordChars (x ++ post) = [m] :=
      eq_of_append_eq_pair (hsplit.symm.trans hwords) hpre hpost
    have hblank : ∀ c ∈ pre, isBlank c = true := by
      have hf := flatten_wordChars (pre ++ w)
      rw [hfirst, List.filter_append, filter_solid hw.2, List.flatten_singleton] at hf
      simpa using List.self_eq_append_left.mp hf
    have hname : x ++ post.filter (!isBlank ·) = m := by
      have hf := flatten_wordChars (x ++ post)
      rw [hsecond, List.filter_append, filter_solid hx.2, List.flatten_singleton] at hf
      exact hf.symm
    -- without the blanks at its start the text begins with the keyword either way
    have hbehind : gap ++ (m ++ bs) = ' ' :: (x ++ post) := by
      have hd := congrArg (List.dropWhile isBlank) hcs
      rw [List.append_assoc, dropWhile_solid hi hw.1 hw.2, dropWhile_solid hblank hw.1 hw.2] at hd
      exact List.append_cancel_left hd
    obtain ⟨g, gs, rfl⟩ := List.exists_cons_of_ne_nil hne
    obtain ⟨rfl, hrest⟩ := List.cons.inj hbehind
    cases gs with
    | nil => exact ⟨rfl, _, hname⟩
    | cons c gs =>
      obtain ⟨d, x, rfl⟩ := List.exists_cons_of_ne_nil hx.1
      obtain ⟨rfl, -⟩ := List.cons.inj hrest
      have hc := hgap c (by simp)
      rw [hx.2 c List.mem_cons_self] at hc
      cases hc
  · rintro ⟨rfl, r, rfl⟩
    exact ⟨indent, r ++ bs, by simp [Review.keyed]⟩

end Occurrence

section Removal
variable {x m line code message : String} {ms : List String}

def IsWordName (x : String) : Prop := x ≠ "" ∧ ∀ c ∈ x.toList, isWord c = true

theorem IsWordName.isName (hx : IsWordName x) : Review.IsName x.toList :=
  ⟨by simpa using hx.1, fun c hc => by rw [isNamePart, hx.2 c hc, Bool.true_or]⟩

/-- The line of a list is taken just if a single space stands before its first name, which begins
with the name that is unused. -/
theorem isBegun_list (hx : IsWordName x) (h : ListsModules line (m :: ms)) :
    isBegun x.toList line = true ↔
      startsWith (trimStart line) ("import " ++ m) = true ∧ x.toList <+: m.toList := by
  have hsolid : x.toList ≠ [] ∧ ∀ c ∈ x.toList, isBlank c = false :=
    ⟨hx.isName.1, solid_of_isName hx.isName⟩
  have hkey : "import".toList ≠ [] ∧ ∀ c ∈ "import".toList, isBlank c = false :=
    ⟨isName_import.1, solid_of_isName isName_import⟩
  rw [isBegun_iff hx.isName.2, startsWith, List.isPrefixOf_iff_prefix]
  constructor
  · intro hin
    obtain ⟨indent, gap, bs, ps, hline, hi, hgap, hne, hbs, rfl⟩ := h.exists_split
    obtain ⟨hm, hms⟩ := List.forall_mem_cons.mp h.names
    have hcomma : ',' ∉ Review.keyed "import".toList x.toList := by
      have hno : ',' ∉ x.toList := fun hc => absurd (hx.2 ',' hc) (by decide)
      simpa [Review.keyed] using hno
    rw [hline] at hin
    rcases infix_piece hcomma hin with hhead | ⟨q, hq, hpiece⟩
    · obtain ⟨rfl, hbegin⟩ := (keyed_infix_iff hi hgap hne hbs hkey
        ⟨hm.1, solid_of_isName hm⟩ hsolid).mp hhead
      refine ⟨?_, hbegin⟩
      rw [trimStart_toList, hline, List.append_assoc, List.append_assoc,
        dropWhile_solid hi hkey.1 hkey.2]
      exact ⟨bs ++ ps.flatMap (',' :: ·.toList), by simp⟩
    · -- the other pieces are one word each
      obtain ⟨pre, post, -, hwords, hpre, hpost⟩ :=
        words_of_keyed hkey.1 hsolid.1 hkey.2 hsolid.2 hpiece
      rw [wordChars_piece (hms _ (List.mem_map_of_mem hq))] at hwords
      rcases List.append_eq_singleton_iff.mp hwords.symm with ⟨he, -⟩ | ⟨-, he⟩
      · exact absurd he hpre
      · exact absurd he hpost
  · rintro ⟨⟨r, hr⟩, t, ht⟩
    refine List.IsInfix.trans ⟨[], t ++ r, ?_⟩ (trimStart_isInfix line)
    rw [← hr, String.toList_append, ← ht]
    simp [Review.keyed]

/-- A script `after` keeps what a script `before` has apart from the import of `x`: the lines that
do not import it, and the other names that are imported. -/
structure KeepsOthers (x : String) (before after : List String) : Prop where
  lines : (before.filter fun line => !(imports line).contains x).Sublist after
  names : ∀ line ∈ before, ∀ n ∈ imports line, n ≠ x → ∃ l ∈ after, n ∈ imports l

/-- A message reports that the name `x` is imported but unused. -/
structure ReportsUnused (message x : String) : Prop where
  spelled : ∃ pre mid post, message = pre ++ "F401" ++ mid ++ "'" ++ x ++ "' imported but unused" ++
    post ∧ (∀ s ∈ [pre, mid, post], '\'' ∉ s.toList) ∧ '\n' ∉ mid.toList
  name : IsWordName x

def remaining (x code : String) : List String :=
  (lines code).filter fun line => !isBegun x.toList line

def unusedRule : Rule :=
  .fix "F401.*'(\\w+)' imported but unused"
    (.byFound fun code m => dropLines code s!"import {m.group 1}")

theorem head_scriptRules : Rule.scriptRules.head? = some unusedRule := rfl

def quotedUnused : Pattern :=
  .seq (.many true (.char (.except (.literal '\n'))))
    (.seq (.char (.literal '\'')) (.seq (.group 1 (plus .word)) (text "' imported but unused")))

theorem unusedRule_pattern : unusedRule.pattern = spelled "F401".toList quotedUnused := by
  decide +kernel

theorem eq_between_quotes {q : Char} {a b c u v w : List Char} (ha : q ∉ a) (hb : q ∉ b)
    (hc : q ∉ c) (hv : q ∉ v) (h : a ++ q :: (b ++ q :: c) = u ++ q :: (v ++ q :: w)) : b = v := by
  have hsplit := congrArg (splitChars q) h
  rw [splitChars_append, splitChars_append, splitChars_append, splitChars_append,
    splitChars_of_not_mem ha, splitChars_of_not_mem hb, splitChars_of_not_mem hc,
    splitChars_of_not_mem hv] at hsplit
  obtain ⟨d, ds, hd⟩ := List.exists_cons_of_ne_nil (intercalate_splitChars q u).1
  obtain ⟨e, es, he⟩ := List.exists_cons_of_ne_nil (intercalate_splitChars q w).1
  rw [hd, he] at hsplit
  cases ds with
  | nil => exact (List.cons.inj (List.cons.inj hsplit).2).1
  | cons f ds =>
    have hlength := congrArg List.length hsplit
    simp only [List.length_append, List.length_cons, List.length_nil] at hlength
    omega

theorem matches_unused {mid w post : List Char} {s : Cursor} (hmid : '\n' ∉ mid) (hne : w ≠ [])
    (hw : ∀ c ∈ w, isWord c = true) (hs : s.rest = "F401".toList ++ (mid ++ (['\''] ++
      (w ++ ("' imported but unused".toList ++ post))))) :
    ∃ t, unusedRule.pattern.Matches s t := by
  obtain ⟨u, hu, hr⟩ := Cursor.exists_reads hs
  obtain ⟨v, hv, hr⟩ := Cursor.exists_reads hr
  obtain ⟨a, ha, hr⟩ := Cursor.exists_reads hr
  obtain ⟨b, hb, hr⟩ := Cursor.exists_reads hr
  obtain ⟨e, he⟩ : ∃ e : Cursor, e = { b with groups :=
    (1, String.ofList (a.rest.take (b.pos - a.pos))) :: b.groups } := ⟨_, rfl⟩
  obtain ⟨d, hd, -⟩ := Cursor.exists_reads (s := e) (by rw [he]; exact hr)
  have hline : (Pattern.many true (.char (.except (.literal '\n')))).Matches u v := by
    refine matches_many_char.mpr ⟨mid, fun c hc => ?_, hv⟩
    have hfeed : c ≠ '\n' := fun he => hmid (he ▸ hc)
    simpa [CharClass.holds] using hfeed
  have hquote : (Pattern.char (.literal '\'')).Matches v a := matches_char.mpr ⟨'\'', rfl, ha⟩
  have hname : (Pattern.group 1 (plus .word)).Matches a e := ⟨b, matches_plus_of hne hw hb, he⟩
  have hend : (text "' imported but unused").Matches e d := by
    rw [matches_text]
    exact hd
  have hbehind := hquote.seq (hname.seq hend)
  rw [unusedRule_pattern]
  exact ⟨d, matches_spelled_of hu (hline.seq hbehind)⟩

theorem exists_of_search {found : Found} (h : unusedRule.pattern.search message = some found) :
    ∃ pre post, message.toList = pre ++ '\'' :: ((found.group 1).toList ++ '\'' :: post) ∧
      IsWordName (found.group 1) := by
  obtain ⟨pre, u, t, hs, hu, ht, hgroups⟩ := search_eq_some h
  rw [unusedRule_pattern] at ht
  obtain ⟨v, hv, a, ha, b, hb, d, ⟨e, he, hd⟩, htext⟩ := matches_spelled ht
  obtain ⟨mid, -, hmid⟩ := matches_many_char.mp ha
  obtain ⟨c, hc, hquote⟩ := matches_char.mp hb
  obtain ⟨w, hw, hword, hne⟩ := matches_plus he
  have hend := matches_text.mp htext
  obtain rfl : c = '\'' := by simpa [CharClass.holds] using hc
  have hrest : b.rest = w ++ d.rest := by
    rw [hw.rest, hd]
  have htake : b.rest.take (e.pos - b.pos) = w := by
    rw [hw.pos, Nat.add_sub_cancel_left, hw.rest, List.take_left]
  have hgroup : found.group 1 = String.ofList w := by
    rw [Found.group, Found.group?, hgroups, hend.groups, hd, htake]
    rfl
  rw [hgroup, String.toList_ofList]
  refine ⟨pre ++ "F401".toList ++ mid, " imported but unused".toList ++ t.rest, ?_, ?_, ?_⟩
  · rw [hs, hv.rest, hmid.rest, hquote.rest, hrest, hend.rest]
    simp
  · simpa using hne
  · rwa [String.toList_ofList]

theorem search_unused (h : ReportsUnused message x) :
    ∃ found, unusedRule.pattern.search message = some found ∧ found.group 1 = x := by
  obtain ⟨pre, mid, post, hmessage, hquotes, hmid⟩ := h.spelled
  obtain ⟨hne, hword⟩ := h.name
  have hchars : message.toList = pre.toList ++ ("F401".toList ++ (mid.toList ++ (['\''] ++
      (x.toList ++ ("' imported but unused".toList ++ post.toList))))) := by
    rw [hmessage]
    simp only [String.toList_append, List.append_assoc]
    rfl
  cases hs : unusedRule.pattern.search message with
  | none =>
    obtain ⟨t, ht⟩ :=
      matches_unused (s := .between pre.toList _) hmid (by simpa using hne) hword rfl
    exact absurd ht (matchAt_eq_none.mp (matchAt_of_search_eq_none hs hchars) t)
  | some found =>
    obtain ⟨a, b, hsplit, hname⟩ := exists_of_search hs
    have hfree {n : String} (hn : IsWordName n) : '\'' ∉ n.toList :=
      fun hm => absurd (hn.2 _ hm) (by decide)
    have hsame : (pre.toList ++ ("F401".toList ++ mid.toList)) ++ '\'' :: (x.toList ++ '\'' ::
        (" imported but unused".toList ++ post.toList)) =
        a ++ '\'' :: ((found.group 1).toList ++ '\'' :: b) := by
      rw [← hsplit, hchars]
      simp
    simp only [List.forall_mem_cons] at hquotes
    obtain ⟨hpre, hmid', hpost, -⟩ := hquotes
    refine ⟨found, rfl, (String.toList_inj.mp ?_).symm⟩
    refine eq_between_quotes ?_ (hfree h.name) ?_ (hfree hname) hsame
    · simp [hpre, hmid']
    · simp [hpost]

theorem mem_remaining {l : String} :
    l ∈ remaining x code ↔ l ∈ lines code ∧ isBegun x.toList l = false := by
  rw [remaining, List.mem_filter, Bool.not_eq_true']

theorem lines_remaining (x code : String) :
    lines (unlines (remaining x code)) = remaining x code ∨
      remaining x code = [] ∧ lines (unlines (remaining x code)) = [""] := by
  by_cases hne : remaining x code = []
  · exact .inr ⟨hne, by rw [hne]; rfl⟩
  · refine .inl (lines_unlines hne fun l hl => ?_)
    exact not_mem_of_mem_lines (mem_remaining.mp hl).1

private theorem imported_remaining {n : String} :
    (∃ l ∈ lines (unlines (remaining x code)), n ∈ imports l) ↔
      ∃ l ∈ lines code, isBegun x.toList l = false ∧ n ∈ imports l := by
  rcases lines_remaining x code with hl | ⟨hnil, hl⟩
  · simp only [hl, mem_remaining, and_assoc]
  · have hnone : imports "" = [] := by decide
    refine ⟨?_, ?_⟩
    · rintro ⟨l, hm, hn⟩
      rw [hl, List.mem_singleton] at hm
      rw [hm, hnone] at hn
      cases hn
    · rintro ⟨l, hm, hno, -⟩
      have hmem := mem_remaining.mpr ⟨hm, hno⟩
      rw [hnil] at hmem
      cases hmem

private theorem not_begun_of_remaining {l : String} (h : l ∈ lines (unlines (remaining x code))) :
    isBegun x.toList l = false := by
  rcases lines_remaining x code with hl | ⟨-, hl⟩
  · rw [hl] at h
    exact (mem_remaining.mp h).2
  · rw [hl, List.mem_singleton] at h
    subst h
    rfl

theorem keepsOthers_iff (x code : String) :
    KeepsOthers x (lines code) (lines (unlines (remaining x code))) ↔
      ∀ line ∈ lines code, isBegun x.toList line = true → x ∈ imports line ∧
        ∀ n ∈ imports line, n ≠ x →
          ∃ l ∈ lines code, isBegun x.toList l = false ∧ n ∈ imports l := by
  constructor
  · intro h line hline hbegun
    refine ⟨?_, fun n hn hne => imported_remaining.mp (h.names line hline n hn hne)⟩
    by_contra hx
    have hkept := h.lines.subset (List.mem_filter.mpr ⟨hline, by simpa using hx⟩)
    rw [not_begun_of_remaining hkept] at hbegun
    cases hbegun
  · intro h
    refine ⟨?_, fun line hline n hn hne => ?_⟩
    · have hsub : ((lines code).filter fun line => !(imports line).contains x).Sublist
          (remaining x code) := by
        have heq : (lines code).filter (fun line => !(imports line).contains x) =
            (remaining x code).filter fun line => !(imports line).contains x := by
          rw [remaining, List.filter_filter]
          refine List.filter_congr fun line hline => ?_
          cases hbegun : isBegun x.toList line with
          | true => simp [(h line hline hbegun).1]
          | false => simp
        rw [heq]
        exact List.filter_sublist
      rcases lines_remaining x code with hl | ⟨hnil, hl⟩
      · rwa [hl]
      · rw [hnil] at hsub
        rw [List.sublist_nil.mp hsub]
        exact List.nil_sublist _
    · rw [imported_remaining]
      cases hbegun : isBegun x.toList line with
      | true => exact (h line hline hbegun).2 n hn hne
      | false => exact ⟨line, hline, hbegun, hn⟩

/-- The lines with `import` before the name are those with a name behind `import` that begins with
it. -/
private theorem dropLines_eq (hx : IsWordName x) (code : String) :
    (dropLines code s!"import {x}").code = unlines (remaining x code) := by
  have hpiece : (s!"import {x}").toList = Review.keyed "import".toList x.toList := by
    change ("import " ++ x).toList = _
    rw [String.toList_append]
    rfl
  refine congrArg unlines (List.filter_congr fun line _ => congrArg not ?_)
  rw [Bool.eq_iff_iff, contains_iff, isBegun_iff hx.isName.2, hpiece]

/-- What a report of an unused import takes away: the lines with a name behind `import` that begins
with the unused one. What else the script imports is kept just if each of these lines imports the
name, and each other name on them is imported on a line that stays. A list of modules goes as a
whole, if a single space stands before its first name and the name begins with the unused one. -/
theorem unused_import_removal {r : Rule} (hr : Rule.scriptRules.head? = some r) :
    (∀ message x, ReportsUnused message x →
      ∃ found, r.pattern.search message = some found ∧ found.group 1 = x) ∧
    ∀ message found x, r.pattern.search message = some found → found.group 1 = x →
      (∀ code modules, ∃ remedy e, r.remedy = some remedy ∧
        remedy.apply ⟨found, message, code, modules⟩ = .ok e ∧
        e.code = unlines (remaining x code) ∧
        (KeepsOthers x (lines code) (lines e.code) ↔
          ∀ line ∈ lines code, isBegun x.toList line = true → x ∈ imports line ∧
            ∀ n ∈ imports line, n ≠ x →
              ∃ l ∈ lines code, isBegun x.toList l = false ∧ n ∈ imports l)) ∧
      ∀ line m ms, ListsModules line (m :: ms) → imports line = m :: ms ∧
        (isBegun x.toList line = true ↔
          startsWith (trimStart line) ("import " ++ m) = true ∧ x.toList <+: m.toList) := by
  rw [head_scriptRules] at hr
  obtain rfl := Option.some.inj hr
  refine ⟨fun message x h => search_unused h, ?_⟩
  rintro message found x hfound rfl
  obtain ⟨-, -, -, hname⟩ := exists_of_search hfound
  refine ⟨fun code modules => ?_, fun line m ms h => ⟨imports_list h, isBegun_list hname h⟩⟩
  have hcode := dropLines_eq hname code
  refine ⟨_, dropLines code s!"import {found.group 1}", rfl, rfl, hcode, ?_⟩
  rw [hcode]
  exact keepsOthers_iff _ code

/-- A module with a longer name goes as well, and so does one that stands in the same list. -/
theorem other_modules_removed : ∃ r remedy found e, Rule.scriptRules.head? = some r ∧
    r.remedy = some remedy ∧
    r.pattern.search "a.py:2:1: F401 'json' imported but unused" = some found ∧
    remedy.apply ⟨found, "a.py:2:1: F401 'json' imported but unused",
      "import json5\nimport json, sys", []⟩ = .ok e ∧
    e.code = "" ∧ ¬ KeepsOthers "json" (lines "import json5\nimport json, sys") (lines e.code) := by
  have hreport : ReportsUnused "a.py:2:1: F401 'json' imported but unused" "json" :=
    { spelled := ⟨"a.py:2:1: ", " ", "", by decide, forall_mem_of_all (by decide), by decide⟩
      name := ⟨by decide, forall_mem_of_all (by decide)⟩ }
  obtain ⟨hreports, heffect⟩ := unused_import_removal head_scriptRules
  obtain ⟨found, hfound, hgroup⟩ := hreports _ _ hreport
  obtain ⟨remedy, e, hremedy, happly, hcode, hkeeps⟩ :=
    (heffect _ found _ hfound hgroup).1 "import json5\nimport json, sys" []
  refine ⟨_, remedy, found, e, head_scriptRules, hremedy, hfound, happly, ?_, ?_⟩
  · rw [hcode]
    decide
  · rw [hkeeps]
    intro h
    have hname := (h "import json5" (by decide) (by decide)).1
    revert hname
    decide

end Removal

end Mender.Repair
