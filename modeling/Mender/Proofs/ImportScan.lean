import Mender.Proofs.PatternRun
import Mender.Proofs.Text
import Mender.Review.Imports

/-! Imports as words. Every import pattern asks for a keyword at the end of a word, blanks and a
module name, and some of them for a second keyword at the start of the word behind it. So the
modules that a text imports can be read off its words and the gaps between them. -/
namespace Mender.Review
open Text Pattern

def isNamePart (c : Char) : Bool := isWord c || c == '.'

theorem not_namePart_of_blank {c : Char} (h : isBlank c = true) : isNamePart c = false := by
  let points := blankRanges.flatMap fun r => List.range' r.1 (r.2 - r.1 + 1)
  have all : ∀ n ∈ points, isNamePart (Char.ofNat n) = false := by decide +kernel
  have hn : c.toNat ∈ points := by
    simp only [isBlank, inRanges, List.any_eq_true, Bool.and_eq_true, decide_eq_true_eq] at h
    obtain ⟨⟨lo, hi⟩, hr, hlo, hhi⟩ := h
    exact List.mem_flatMap.mpr ⟨_, hr, List.mem_range'_1.mpr ⟨hlo, by dsimp only at *; omega⟩⟩
  rw [← Char.ofNat_toNat c]
  exact all _ hn

theorem not_blank_of_namePart {c : Char} (h : isNamePart c = true) : isBlank c = false := by
  cases hb : isBlank c with
  | false => rfl
  | true =>
    rw [not_namePart_of_blank hb] at h
    cases h

def IsName (w : List Char) : Prop := w ≠ [] ∧ ∀ c ∈ w, isNamePart c = true

/-- The words of a text, each with the gap behind it. -/
abbrev Words := List (List Char × List Char)

namespace Words

def spell (ps : Words) : List Char := ps.flatMap fun p => p.1 ++ p.2

/-- Words and gaps follow each other in turn; only the first word and the last gap may be empty. -/
inductive Tiled : Words → Prop
  | single {w g : List Char} (hw : ∀ c ∈ w, isNamePart c = true)
      (hg : ∀ c ∈ g, isNamePart c = false) : Tiled [(w, g)]
  | cons {w g v h : List Char} {ps : Words} (hw : ∀ c ∈ w, isNamePart c = true)
      (hg : ∀ c ∈ g, isNamePart c = false) (hne : g ≠ []) (hv : v ≠ [])
      (ht : Tiled ((v, h) :: ps)) : Tiled ((w, g) :: (v, h) :: ps)

def push (c : Char) : Words → Words
  | [] => []
  | (w, g) :: ps =>
    if isNamePart c then (c :: w, g) :: ps
    else if w = [] then ([], c :: g) :: ps
    else ([], [c]) :: (w, g) :: ps

def ofChars (cs : List Char) : Words := cs.foldr push [([], [])]

def first : Words → List Char
  | [] => []
  | (w, _) :: _ => w

@[simp] theorem spell_nil : spell [] = [] := rfl

@[simp] theorem spell_cons (w g : List Char) (ps : Words) :
    spell ((w, g) :: ps) = w ++ (g ++ spell ps) := by simp [spell]

namespace Tiled
variable {w g v h : List Char} {ps : Words}

theorem word (ht : Tiled ((w, g) :: ps)) : ∀ c ∈ w, isNamePart c = true := by
  cases ht <;> assumption

theorem gap (ht : Tiled ((w, g) :: ps)) : ∀ c ∈ g, isNamePart c = false := by
  cases ht <;> assumption

theorem tail {p q : List Char × List Char} (ht : Tiled (p :: q :: ps)) : Tiled (q :: ps) := by
  cases ht
  assumption

theorem exists_cons (ht : Tiled ps) : ∃ w g qs, ps = (w, g) :: qs := by
  cases ht <;> exact ⟨_, _, _, rfl⟩

theorem replace (ht : Tiled ((w, g) :: ps)) (hv : ∀ c ∈ v, isNamePart c = true) :
    Tiled ((v, g) :: ps) := by
  cases ht with
  | single hw hg => exact .single hv hg
  | cons hw hg hne hw' ht => exact .cons hv hg hne hw' ht

theorem shorten {c d : Char} (ht : Tiled ((w, c :: d :: g) :: ps)) :
    Tiled ((w, d :: g) :: ps) := by
  cases ht with
  | single hw hg => exact .single hw fun x hx => hg x (List.mem_cons_of_mem _ hx)
  | cons hw hg hne hv ht =>
    exact .cons hw (fun x hx => hg x (List.mem_cons_of_mem _ hx)) (by simp) hv ht

theorem stops (ht : Tiled ((w, g) :: ps)) :
    ∀ c ∈ (g ++ spell ps).head?, isNamePart c = false := by
  intro c hc
  cases g with
  | nil =>
    cases ht with
    | single => cases hc
    | cons hw hg hne hv ht => exact absurd rfl hne
  | cons d g => exact ht.gap c (by simp_all)

theorem starts (ht : Tiled ((w, g) :: ps)) : ∀ c ∈ (spell ps).head?, isNamePart c = true := by
  intro c hc
  cases ht with
  | single => cases hc
  | cons hw hg hne hv ht =>
    obtain ⟨d, v, rfl⟩ := List.exists_cons_of_ne_nil hv
    exact ht.word c (by simp_all)

theorem prefix_first {u : List Char} (ht : Tiled ((w, g) :: ps))
    (hu : ∀ c ∈ u, isNamePart c = true) : u <+: spell ((w, g) :: ps) ↔ u <+: w := by
  rw [spell_cons]
  refine ⟨fun h => ?_, fun h => h.trans (List.prefix_append ..)⟩
  rcases List.prefix_or_prefix_of_prefix h (List.prefix_append w _) with hp | ⟨v, rfl⟩
  · exact hp
  · cases v with
    | nil => simp
    | cons c v =>
      -- the character behind the word would belong to a name
      obtain ⟨r, hr⟩ := (List.prefix_append_right_inj w).mp h
      have hc : c ∈ (g ++ spell ps).head? := by simp [← hr]
      exact absurd (hu c (by simp)) (by simp [ht.stops c hc])

end Tiled

private theorem tiled_push {ps : Words} {c : Char} (ht : Tiled ps) : Tiled (push c ps) := by
  cases ps with
  | nil => cases ht
  | cons p ps =>
    obtain ⟨w, g⟩ := p
    cases hc : isNamePart c with
    | true =>
      rw [push, if_pos hc]
      refine ht.replace fun d hd => ?_
      rcases List.mem_cons.mp hd with rfl | hd
      · exact hc
      · exact ht.word d hd
    | false =>
      rw [push, if_neg (by simp [hc])]
      by_cases hw : w = []
      · rw [if_pos hw]
        subst hw
        have hg : ∀ d ∈ c :: g, isNamePart d = false := by
          intro d hd
          rcases List.mem_cons.mp hd with rfl | hd
          · exact hc
          · exact ht.gap d hd
        cases ht with
        | single hw _ => exact .single hw hg
        | cons hw _ hne hv ht => exact .cons hw hg (by simp) hv ht
      · rw [if_neg hw]
        exact .cons (by simp) (by simpa using hc) (by simp) hw ht

theorem tiled_ofChars (cs : List Char) : Tiled (ofChars cs) := by
  induction cs with
  | nil => exact .single (by simp) (by simp)
  | cons c cs ih => exact tiled_push ih

private theorem spell_push {ps : Words} {c : Char} (hne : ps ≠ []) : spell
    (push c ps) = c :: spell ps := by
  obtain ⟨⟨w, g⟩, ps, rfl⟩ := List.exists_cons_of_ne_nil hne
  unfold push
  repeat' split
  all_goals simp_all

theorem spell_ofChars (cs : List Char) : spell (ofChars cs) = cs := by
  induction cs with
  | nil => rfl
  | cons c cs ih =>
    obtain ⟨w, g, ps, hps⟩ := (tiled_ofChars cs).exists_cons
    have hne : ofChars cs ≠ [] := by simp [hps]
    exact (spell_push hne).trans (congrArg (c :: ·) ih)

end Words

/-- The ways of importing a module: a keyword before its name at the start of a line, or a keyword
before and one behind the name anywhere. -/
inductive Form where
  | line (word : List Char)
  | between (word after : List Char)

namespace Form
open Words

def word : Form → List Char
  | .line w => w
  | .between w _ => w

def nameClass : CharClass := .union (.union .none .word) (.literal '.')

def moduleName : Pattern := .group 1 (plus nameClass)

def behind : Form → Pattern
  | .line _ => .seq (plus .blank) moduleName
  | .between _ a => .seq (plus .blank)
      (.seq moduleName (.seq (plus .blank) (text (String.ofList a))))

def pattern : Form → Pattern
  | .line w => .seq (.anchor .lineStart) (spelled w (behind (.line w)))
  | .between w a => spelled w (behind (.between w a))

/-- The keywords are names, and the second does not end in a way in which the first can go on. -/
def Sound : Form → Prop
  | .line w => IsName w
  | .between w a => IsName w ∧ IsName a ∧ ∀ c ∈ a.getLast?, c ∉ w

/-- Whether a keyword that ends before a gap is followed by a module name and what belongs to it. -/
def follows : Form → List Char → Words → Bool
  | _, _, [] => false
  | .line _, g, _ :: _ => g.all isBlank
  | .between _ a, g, (_, h) :: ps => g.all isBlank && h.all isBlank && a.isPrefixOf (first ps)

def reach : Form → List Char → Words → List Char
  | _, _, [] => []
  | .line _, g, (v, _) :: _ => g ++ v
  | .between _ a, g, (v, h) :: _ => g ++ v ++ h ++ a

theorem Sound.word {f : Form} (hf : f.Sound) : IsName f.word := by
  cases f with
  | line w => exact hf
  | between w a => exact hf.1

@[simp] theorem holds_nameClass (c : Char) : nameClass.holds c = isNamePart c := by
  simp [nameClass, CharClass.holds, isNamePart]

section Runs
variable {k : Continuation} {s : Cursor} {w g v h : List Char} {ps : Words}

theorem run_moduleName (hs : s.rest = spell ((v, h) :: ps)) (ht : Tiled ((v, h) :: ps))
    (hv : v ≠ []) (hk : (∀ t, k t ≠ none) ∨ k.Refuses fun x => isNamePart x = true) :
    moduleName.run k s = k ⟨v.reverse ++ s.before, h ++ spell ps, s.pos + v.length,
      (1, String.ofList v) :: s.groups⟩ := by
  rw [spell_cons] at hs
  have hp := run_plus (c := nameClass) (k := fun t =>
    k { t with groups := (1, String.ofList (s.rest.take (t.pos - s.pos))) :: t.groups }) hs hv
    (by simpa using ht.word) (by simpa using ht.stops)
    (hk.imp (fun h => h _) fun h t x q hq hx => h _ x q hq (by simpa using hx))
  refine Eq.trans hp ?_
  simp [Cursor.past, hs]

theorem run_moduleName_of_not (h : ∀ x ∈ s.rest.head?, isNamePart x = false) :
    moduleName.run k s = none := run_plus_of_not (by simpa using h)

theorem run_gap (hs : s.rest = g ++ spell ps) (ht : Tiled ((w, g) :: ps))
    (hk : k.Refuses fun x => isNamePart x = false) (hn : ∀ t, t.rest = [] → k t = none) :
    (plus .blank).run k s = if g.all isBlank then k (s.past g (spell ps)) else none := by
  have hrefuse : k.Refuses fun x => CharClass.blank.holds x = true :=
    fun t x q hq hx => hk t x q hq (not_namePart_of_blank hx)
  split
  · rename_i hall
    rw [List.all_eq_true] at hall
    by_cases hne : g = []
    · have hend : ps = [] := by
        cases ht with
        | single => rfl
        | cons _ _ h => exact absurd hne h
      subst hne hend
      rw [run_plus_of_not (by simp [hs]), hn _ rfl]
    · refine run_plus hs hne hall (fun x hx => ?_) (.inr hrefuse)
      cases hb : isBlank x with
      | false => exact hb
      | true => exact absurd (ht.starts x hx) (by simp [not_namePart_of_blank hb])
  · rename_i hall
    -- the first character of the gap that is not blank can neither be read nor be followed
    obtain ⟨y, hy⟩ : ∃ y, g.find? (!isBlank ·) = some y := by
      rw [← Option.isSome_iff_exists, List.find?_isSome]
      simpa using hall
    obtain ⟨hb, u, q, rfl, hu⟩ := List.find?_eq_some_iff_append.mp hy
    have hb : isBlank y = false := by simpa using hb
    rw [List.append_assoc] at hs
    by_cases hne : u = []
    · subst hne
      exact run_plus_of_not (by simpa [hs, CharClass.holds] using hb)
    · rw [run_plus hs hne (by simpa [CharClass.holds] using hu)
        (by simpa [CharClass.holds] using hb) (.inr hrefuse)]
      exact hk _ y _ rfl (ht.gap y (by simp))

theorem refuses_moduleName :
    Continuation.Refuses (moduleName.run k) fun x => isNamePart x = false := by
  intro t x q hq hx
  exact run_moduleName_of_not (by simpa [hq] using hx)

private theorem run_name_end (ht : Tiled ((w, g) :: ps)) (hs : s.rest = spell ps)
    (hk : (∀ t, k t ≠ none) ∨ k.Refuses fun x => isNamePart x = true) :
    moduleName.run k s = match ps with
      | [] => none
      | (v, h) :: ps => k ⟨v.reverse ++ s.before, h ++ spell ps, s.pos + v.length,
          (1, String.ofList v) :: s.groups⟩ := by
  cases ht with
  | single => exact run_moduleName_of_not (by simp [hs])
  | cons hw hg hne hv ht => exact run_moduleName hs ht hv hk

theorem run_after {a : List Char} (k : Continuation) (s : Cursor) :
    (text (String.ofList a)).run k s =
      if a.isPrefixOf s.rest then k (s.past a (s.rest.drop a.length)) else none := by
  rw [run_text]
  split
  · rename_i h
    obtain ⟨r, hr⟩ := List.isPrefixOf_iff_prefix.mp h
    rw [run_spelled hr.symm, ← hr, List.drop_left]
    rfl
  · rename_i h
    exact run_spelled_of_not (by simpa using h)

private theorem refuses_after {a : List Char} (ha : IsName a) :
    Continuation.Refuses ((text (String.ofList a)).run k) fun x => isNamePart x = false := by
  intro t x q hq hx
  rw [run_after, if_neg]
  obtain ⟨c, a, rfl⟩ := List.exists_cons_of_ne_nil ha.1
  rw [hq, List.isPrefixOf_iff_prefix, List.cons_prefix_cons]
  rintro ⟨rfl, -⟩
  rw [ha.2 c List.mem_cons_self] at hx
  cases hx

theorem refuses_blanks :
    Continuation.Refuses ((plus .blank).run k) fun x => isNamePart x = true := by
  intro t x q hq hx
  refine run_plus_of_not fun y hy => ?_
  obtain rfl : x = y := by simpa [hq] using hy
  cases hb : isBlank x with
  | false => exact hb
  | true => rw [not_namePart_of_blank hb] at hx; cases hx

theorem refuses_behind {f : Form} :
    Continuation.Refuses (f.behind.run k) fun x => isNamePart x = true := by
  cases f <;> exact refuses_blanks

theorem run_behind {f : Form} (hf : f.Sound) (ht : Tiled ((w, g) :: ps))
    (hs : s.rest = g ++ spell ps) : f.follows g ps = false ∧ f.behind.run some s = none ∨
      ∃ v h qs t, ps = (v, h) :: qs ∧ f.follows g ps = true ∧ f.behind.run some s = some t ∧
        t.pos = s.pos + (f.reach g ps).length ∧ t.groups = (1, String.ofList v) :: s.groups := by
  cases f with
  | line word =>
    have hr := run_gap (k := moduleName.run some) hs ht refuses_moduleName
      fun t h => run_moduleName_of_not (by simp [h])
    rw [run_name_end ht rfl (.inl fun t => by simp)] at hr
    change (behind (.line word)).run some s = _ at hr
    rw [hr]
    cases ps with
    | nil => exact .inl ⟨rfl, by simp⟩
    | cons p qs =>
      obtain ⟨v, h⟩ := p
      cases hg : g.all isBlank with
      | false => exact .inl ⟨hg, by simp⟩
      | true =>
        refine .inr ⟨v, h, qs, _, rfl, hg, rfl, ?_, rfl⟩
        simp [reach, Cursor.past, Nat.add_assoc]
  | between word a =>
    obtain ⟨-, ha, -⟩ := hf
    have hr := run_gap (k := moduleName.run ((plus .blank).run ((text (String.ofList a)).run some)))
      hs ht refuses_moduleName fun t h => run_moduleName_of_not (by simp [h])
    rw [run_name_end ht rfl (.inr refuses_blanks)] at hr
    change (behind (.between word a)).run some s = _ at hr
    rw [hr]
    cases ps with
    | nil => exact .inl ⟨rfl, by simp⟩
    | cons p qs =>
      obtain ⟨v, h⟩ := p
      dsimp only
      rw [run_gap rfl ht.tail (refuses_after ha)
        fun t h => by rw [run_after, h, if_neg (by simp [ha.1])], run_after]
      cases hg : g.all isBlank with
      | false => exact .inl ⟨by simp [follows, hg], by simp⟩
      | true =>
        cases hh : h.all isBlank with
        | false => exact .inl ⟨by simp [follows, hh], by simp⟩
        | true =>
          have hfirst : a.isPrefixOf (spell qs) = a.isPrefixOf (first qs) := by
            cases qs with
            | nil => rfl
            | cons q rs =>
              rw [Bool.eq_iff_iff, List.isPrefixOf_iff_prefix, List.isPrefixOf_iff_prefix,
                ht.tail.tail.prefix_first ha.2, first]
          simp only [Cursor.past, hfirst]
          cases hp : a.isPrefixOf (first qs) with
          | false => exact .inl ⟨by simp [follows, hp], by simp⟩
          | true =>
            simp only [if_true]
            refine .inr ⟨v, h, qs, _, rfl, by simp [follows, hg, hh, hp], rfl, ?_, rfl⟩
            simp [reach, Nat.add_assoc]

end Runs

variable {f : Form}

theorem moves_pattern (hf : f.Sound) : f.pattern.Moves := by
  cases f with
  | line w =>
    rintro s t ⟨u, ⟨-, rfl⟩, ht⟩
    exact moves_spelled _ hf.word.1 _ t ht
  | between w a => exact moves_spelled _ hf.word.1

/-- Whether a keyword stands at a place: the whole rest of a word, where the form allows it. -/
def stands : Form → Bool → List Char → Bool
  | .line word, start, w => start && w == word
  | .between word _, _, w => w == word

private theorem reach_prefix {g : List Char} {ps : Words} (h : f.follows g ps = true) :
    f.reach g ps <+: g ++ spell ps := by
  match f, ps with
  | _, [] => simp [follows] at h
  | .line _, (v, k) :: qs => exact ⟨k ++ spell qs, by simp [reach]⟩
  | .between _ a, (v, k) :: qs =>
    simp only [follows, Bool.and_eq_true, List.isPrefixOf_iff_prefix] at h
    match qs with
    | [] => exact ⟨[], by simp [reach, List.prefix_nil.mp h.2]⟩
    | (u, l) :: rs =>
      obtain ⟨r, rfl⟩ := h.2
      exact ⟨r ++ (l ++ spell rs), by simp [reach]⟩

theorem matchAt_word (hf : f.Sound) {w g : List Char} {ps : Words}
    (ht : Tiled ((w, g) :: ps)) (before : List Char) (pos : Nat) :
    let s : Cursor := ⟨before, spell ((w, g) :: ps), pos, []⟩
    let here := f.stands (Anchor.lineStart.holds s) w && f.follows g ps
    here = false ∧ f.pattern.matchAt false s = none ∨
      ∃ v h qs m, ps = (v, h) :: qs ∧ here = true ∧ f.pattern.matchAt false s = some m ∧
        m.text.toList = f.word ++ f.reach g ps ∧ m.group 1 = String.ofList v := by
  intro s here
  have hrun : f.pattern.run some s =
      if f.stands (Anchor.lineStart.holds s) f.word then (spelled f.word f.behind).run some s
      else none := by
    cases f with
    | line w => simp [pattern, run, stands, word]
    | between w a => simp [pattern, stands, word]
  rw [matchAt_eq, hrun]
  by_cases hw : w = f.word
  · subst hw
    have hrest : s.rest = f.word ++ (g ++ spell ps) := spell_cons ..
    rw [run_spelled hrest]
    cases hst : f.stands (Anchor.lineStart.holds s) f.word with
    | false => exact .inl ⟨by simp [here, hst], rfl⟩
    | true =>
      rcases run_behind (s := s.past f.word (g ++ spell ps)) hf ht rfl with
        ⟨hn, hr⟩ | ⟨v, h, qs, t, rfl, hn, hr, hpos, hgr⟩
      · exact .inl ⟨by simp [here, hst, hn], by rw [hr]; rfl⟩
      · refine .inr ⟨v, h, qs, _, rfl, by simp [here, hst, hn], by rw [hr]; rfl, ?_, ?_⟩
        · obtain ⟨r, hr⟩ := reach_prefix hn
          have hlen : t.pos - s.pos = (f.word ++ f.reach g ((v, h) :: qs)).length := by
            simp only [hpos, Cursor.past, List.length_append]
            omega
          dsimp only
          rw [hrest, ← hr, hlen, ← List.append_assoc, List.take_left, String.toList_ofList]
        · simp [Found.group, Found.group?, hgr]
  · have hno : f.stands (Anchor.lineStart.holds s) w = false := by
      cases f <;> simp_all [stands, word]
    refine .inl ⟨by simp [here, hno], ?_⟩
    have hnone : (spelled f.word f.behind).run some s = none := by
      by_cases hp : f.word <+: s.rest
      · -- the word goes on, so that no blank can follow
        obtain ⟨v, rfl⟩ := (ht.prefix_first hf.word.2).mp hp
        obtain ⟨x, v, rfl⟩ := List.exists_cons_of_ne_nil (l := v) (by rintro rfl; simp at hw)
        rw [run_spelled (r := x :: v ++ (g ++ spell ps)) (by simp [s])]
        have hx : isNamePart x = true := ht.word x (by simp)
        exact refuses_behind (s.past f.word (x :: (v ++ (g ++ spell ps)))) x _ rfl hx
      · exact run_spelled_of_not hp
    rw [hnone]
    split <;> rfl

def opens : Form → Bool → List Char → Bool
  | .line word, start, w => start && w == word
  | .between word _, _, w => word.isSuffixOf w

def endsLine (g : List Char) : Bool := g.getLast? == some '\n'

/-- The modules that words import in a form; the flag says whether the first word stands at the
start of a line. The name of a module and what stands before it are not looked at again. -/
def scan (f : Form) : Bool → Words → List (List Char)
  | _, [] => []
  | _, [_] => []
  | start, (w, g) :: (v, h) :: ps =>
    if f.opens start w && f.follows g ((v, h) :: ps) then v :: scan f (endsLine h) ps
    else scan f (endsLine g) ((v, h) :: ps)

section Scan
variable {f : Form} {w g v h : List Char} {ps : Words} {start : Bool}

private theorem opens_nil (hf : f.Sound) (start : Bool) : f.opens start [] = false := by
  cases f with
  | line word =>
    have : ([] == word) = false := by simpa using Ne.symm hf.1
    simp [opens, this]
  | between word a =>
    rw [opens, Bool.eq_false_iff, ne_eq, List.isSuffixOf_iff_suffix, List.suffix_nil]
    exact hf.1.1

theorem scan_skip (hw : f.opens start w = false) :
    f.scan start ((w, g) :: ps) = f.scan (endsLine g) ps := by
  match ps with
  | [] => rfl
  | (v, h) :: qs => rw [scan, hw, Bool.false_and, if_neg (by simp)]

theorem scan_empty (hf : f.Sound) (start : Bool) :
    f.scan start (([], g) :: ps) = f.scan (endsLine g) ps := scan_skip (opens_nil hf start)

theorem scan_congr {start stop : Bool} (hw : (f.opens start w && f.follows g ps) =
    (f.opens stop v && f.follows g ps)) :
    f.scan start ((w, g) :: ps) = f.scan stop ((v, g) :: ps) := by
  match ps with
  | [] => rfl
  | (u, h) :: qs => rw [scan, scan, hw]

theorem scan_step {c : Char} (h : (f.stands start (c :: w) && f.follows g ps) = false) :
    f.scan start ((c :: w, g) :: ps) = f.scan false ((w, g) :: ps) := by
  apply scan_congr
  cases hn : f.follows g ps with
  | false => simp
  | true =>
    rw [hn, Bool.and_true] at h
    cases f with
    | line word => simpa [opens, stands] using h
    | between word a =>
      have hne : word ≠ c :: w := by
        rintro rfl
        simp [stands] at h
      rw [Bool.and_true, Bool.and_true, opens, opens, Bool.eq_iff_iff,
        List.isSuffixOf_iff_suffix, List.isSuffixOf_iff_suffix, List.suffix_cons_iff]
      simp [hne]

theorem opens_of_stands (h : f.stands start w = true) : w = f.word ∧ f.opens start w = true := by
  cases f with
  | line word =>
    refine ⟨?_, h⟩
    simp only [stands, Bool.and_eq_true, beq_iff_eq] at h
    exact h.2
  | between word a =>
    obtain rfl : w = word := by simpa [stands] using h
    exact ⟨rfl, by simp [opens]⟩

private theorem suffix_append_iff {word a u : List Char} (ha : ∀ c ∈ a.getLast?, c ∉ word) :
    word <:+ a ++ u ↔ word <:+ u := by
  refine ⟨fun hs => ?_, fun hs => hs.trans (List.suffix_append ..)⟩
  rcases List.suffix_or_suffix_of_suffix hs (List.suffix_append a u) with h | ⟨x, rfl⟩
  · exact h
  · cases x using List.reverseRecOn with
    | nil => simp
    | append_singleton x c =>
      obtain ⟨y, hy⟩ := hs
      have hlast : c ∈ a.getLast? := by
        rw [← List.append_assoc, List.append_left_inj] at hy
        simp [← hy]
      exact absurd (by simp) (ha c hlast)

/-- What an import leaves of the words is looked at as if its second keyword were still there. -/
private theorem exists_rest {qs : Words} (hf : f.Sound) (ht : Tiled ((w, g) :: (v, h) :: qs))
    (hfol : f.follows g ((v, h) :: qs) = true) :
    ∃ u k rs, Tiled ((u, k) :: rs) ∧
      g ++ spell ((v, h) :: qs) = f.reach g ((v, h) :: qs) ++ spell ((u, k) :: rs) ∧
      ∀ start, f.scan start ((u, k) :: rs) = f.scan (endsLine h) qs := by
  cases f with
  | line word =>
    refine ⟨[], h, qs, ht.tail.replace (by simp), by simp [reach], fun start => ?_⟩
    exact scan_empty hf start
  | between word a =>
    obtain ⟨-, ha, hlast⟩ := hf
    simp only [follows, Bool.and_eq_true, List.isPrefixOf_iff_prefix] at hfol
    match qs with
    | [] => exact absurd (List.prefix_nil.mp hfol.2) ha.1
    | (u, k) :: rs =>
      obtain ⟨u, rfl⟩ := hfol.2
      refine ⟨u, k, rs, ht.tail.tail.replace fun c hc => ht.tail.tail.word c (by simp [hc]),
        by simp [reach], fun start => ?_⟩
      refine scan_congr (congrArg (· && _) ?_)
      rw [opens, opens, Bool.eq_iff_iff, List.isSuffixOf_iff_suffix, List.isSuffixOf_iff_suffix,
        suffix_append_iff hlast]

theorem found_eq_scan (hf : f.Sound) (ht : Tiled ((w, g) :: ps)) (before : List Char) (pos : Nat) :
    (f.pattern.foundFrom before pos (spell ((w, g) :: ps))).map (·.group 1) =
      (f.scan (Anchor.lineStart.holds ⟨before, [], 0, []⟩) ((w, g) :: ps)).map String.ofList := by
  induction hn : (spell ((w, g) :: ps)).length using Nat.strongRecOn
    generalizing w g ps before pos with
  | ind n ih =>
    subst hn
    have hmoves := moves_pattern hf
    rcases matchAt_word hf ht before pos with
      ⟨hno, hm⟩ | ⟨v, h, qs, m, rfl, hyes, hm, htext, hgroup⟩
    · change (f.stands (Anchor.lineStart.holds ⟨before, [], 0, []⟩) w && _) = _ at hno
      match w, g, ht with
      | c :: w, g, ht =>
        have hc : c ≠ '\n' := by
          rintro rfl
          exact absurd (ht.word '\n' List.mem_cons_self) (by decide)
        have hflag : Anchor.lineStart.holds ⟨c :: before, [], 0, []⟩ = false := by
          simp [Anchor.holds, hc]
        rw [spell_cons, List.cons_append, ← spell_cons] at hm ⊢
        rw [foundFrom_of_none hm, scan_step hno, ← hflag]
        exact ih _ (by simp) (ht.replace fun d hd => ht.word d (List.mem_cons_of_mem _ hd)) _ _ rfl
      | [], [], ht =>
        cases ht with
        | single =>
          rw [spell_cons, List.nil_append, List.nil_append, spell_nil, foundFrom_nil hmoves]
          rfl
        | cons hw hg hne hv ht => exact absurd rfl hne
      | [], [c], ht =>
        have hflag : Anchor.lineStart.holds ⟨c :: before, [], 0, []⟩ = endsLine [c] := by
          simp [Anchor.holds, endsLine]
        rw [spell_cons, List.nil_append, List.singleton_append] at hm ⊢
        rw [foundFrom_of_none hm, scan_empty hf, ← hflag]
        match ps with
        | [] => rw [spell_nil, foundFrom_nil hmoves]; rfl
        | (v, h) :: qs => exact ih _ (by simp) ht.tail _ _ rfl
      | [], c :: d :: g, ht =>
        have hgap : endsLine (c :: d :: g) = endsLine (d :: g) := by simp [endsLine]
        have := ih _ (by simp) ht.shorten (c :: before) (pos + 1) rfl
        rw [spell_cons, List.nil_append, List.cons_append] at hm ⊢
        rw [foundFrom_of_none hm, scan_empty hf, hgap, ← scan_empty hf _]
        exact this
    · obtain ⟨hst, hfol⟩ := Bool.and_eq_true_iff.mp hyes
      change f.stands (Anchor.lineStart.holds ⟨before, [], 0, []⟩) w = _ at hst
      obtain ⟨hw, hop⟩ := opens_of_stands hst
      obtain ⟨u, k, rs, htu, hspell, hscan⟩ := exists_rest hf ht hfol
      have htail : spell ((w, g) :: (v, h) :: qs) = m.text.toList ++ spell ((u, k) :: rs) := by
        rw [spell_cons, hspell, htext, hw, List.append_assoc]
      have hlt : (spell ((u, k) :: rs)).length < (spell ((w, g) :: (v, h) :: qs)).length := by
        have := List.length_pos_of_ne_nil hf.word.1
        rw [htail, htext]
        simp only [List.length_append]
        omega
      rw [foundFrom_of_some hmoves hm htail, List.map_cons, hgroup, ih _ hlt htu _ _ rfl, hscan,
        scan, if_pos (Bool.and_eq_true_iff.mpr ⟨hop, hfol⟩)]
      rfl

end Scan

end Form

def forms : List Form :=
  [.between "from".toList "import".toList, .line "import".toList,
   .between "import".toList "as".toList]

private theorem forms_pattern : forms.map Form.pattern =
    [fromImport, lineImport, renamedImport] := by
  decide

theorem isName_from : IsName "from".toList := ⟨by decide, forall_mem_of_all (by decide)⟩

theorem isName_import : IsName "import".toList := ⟨by decide, forall_mem_of_all (by decide)⟩

theorem isName_as : IsName "as".toList := ⟨by decide, forall_mem_of_all (by decide)⟩

private theorem sound_of_mem_forms {f : Form} (hf : f ∈ forms) : f.Sound := by
  simp only [forms, List.mem_cons, List.not_mem_nil, or_false] at hf
  rcases hf with rfl | rfl | rfl
  · exact ⟨isName_from, isName_import, by simp⟩
  · exact isName_import
  · exact ⟨isName_import, isName_as, by simp⟩

theorem mem_scriptImports {code m : String} {order : Arrangement} :
    m ∈ scriptImports code order ↔
    ∃ f ∈ forms, ∃ v ∈ f.scan true (.ofChars code.toList), m = String.ofList v := by
  have hfound {f : Form} (hf : f ∈ forms) : (f.pattern.findAll code).map (·.group 1) =
      (f.scan true (.ofChars code.toList)).map String.ofList := by
    obtain ⟨w, g, ps, hps⟩ := (Words.tiled_ofChars code.toList).exists_cons
    have hs := Form.found_eq_scan (sound_of_mem_forms hf)
      (hps ▸ Words.tiled_ofChars code.toList) [] 0
    rw [← hps, Words.spell_ofChars] at hs
    rw [Pattern.findAll_eq]
    exact hs
  rw [scriptImports, Arrangement.mem_members, ← forms_pattern, List.mem_flatMap]
  constructor
  · rintro ⟨p, hp, hm⟩
    obtain ⟨f, hf, rfl⟩ := List.mem_map.mp hp
    rw [hfound hf, List.mem_map] at hm
    obtain ⟨v, hv, rfl⟩ := hm
    exact ⟨f, hf, v, hv, rfl⟩
  · rintro ⟨f, hf, v, hv, rfl⟩
    refine ⟨f.pattern, List.mem_map_of_mem hf, ?_⟩
    rw [hfound hf]
    exact List.mem_map_of_mem hv

theorem mem_scriptImports_byName {code m : String} {order : Arrangement} :
    m ∈ scriptImports code order ↔ m ∈ scriptImports code :=
  mem_scriptImports.trans mem_scriptImports.symm

end Mender.Review
