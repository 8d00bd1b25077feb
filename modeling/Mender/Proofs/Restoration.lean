import Mender.Proofs.ImportScan
import Mender.Review.Accept

/-! What an edit that is taken imports. Restoring a cut module name exchanges words for other words
and leaves the gaps between them, so it can only bring in the words that it puts in. These are the
full name, and the full name with the rest of a longer name that began with the cut one. -/
namespace Mender.Review
open Text Words

namespace Form

/-- Words that agree but for some that are exchanged by `G`, with the same gaps between them. -/
def Alike (G : List Char → List Char → Prop) (p q : List Char × List Char) : Prop :=
  p.2 = q.2 ∧ (p.1 = q.1 ∨ G p.1 q.1)

section Exchange
variable {f : Form} {G : List Char → List Char → Prop} {ps qs : Words}

/-- Words that begin with a second keyword have begun with it before they were exchanged. -/
def Reflects (f : Form) (G : List Char → List Char → Prop) : Prop :=
  ∀ word a, f = .between word a → ∀ w v, G w v → a <+: v → a <+: w

private theorem follows_of_alike (hr : f.Reflects G) {g v v' h : List Char}
    (hs : List.Forall₂ (Alike G) ps qs)
    (hf : f.follows g ((v', h) :: qs) = true) : f.follows g ((v, h) :: ps) = true := by
  cases f with
  | line word => exact hf
  | between word a =>
    simp only [follows, Bool.and_eq_true, List.isPrefixOf_iff_prefix] at hf ⊢
    refine ⟨hf.1, ?_⟩
    cases hs with
    | nil => exact hf.2
    | cons hu _ =>
      rcases hu.2 with he | hG
      · simpa only [first, he] using hf.2
      · exact hr word a rfl _ _ hG hf.2

private theorem exchanged_of_follows {g v v' h u u' k : List Char} {rs rs' : Words}
    (hu : Alike G (u, k) (u', k)) (hf : f.follows g ((v, h) :: (u, k) :: rs) = true)
    (hn : f.follows g ((v', h) :: (u', k) :: rs') = false) : G u u' := by
  rcases hu.2 with he | hG
  · cases he
    have hsame : f.follows g ((v, h) :: (u, k) :: rs) =
        f.follows g ((v', h) :: (u, k) :: rs') := by cases f <;> rfl
    rw [hsame, hn] at hf
    cases hf
  · exact hG

/-- An exchange of words that end with no keyword adds no imports but of the words it puts in. -/
theorem mem_scan_of_alike (hopen : ∀ w v, G w v → ∀ start, f.opens start w = false ∧
    f.opens start v = false) (hr : f.Reflects G) (hs : List.Forall₂ (Alike G) ps qs) {start : Bool}
    {m : List Char} (hm : m ∈ f.scan start qs) : m ∈ f.scan start ps ∨ ∃ w, G w m := by
  induction hn : qs.length using Nat.strongRecOn generalizing ps qs start with
  | ind n ih =>
    subst hn
    cases hs with
    | nil => simp [scan] at hm
    | @cons p p' _ _ hw hs =>
      cases hs with
      | nil => simp [scan] at hm
      | @cons q q' ps qs hv hs =>
        obtain ⟨w, g⟩ := p
        obtain ⟨w', g'⟩ := p'
        obtain ⟨v, h⟩ := q
        obtain ⟨v', h'⟩ := q'
        obtain ⟨rfl : g = g', hw⟩ := hw
        obtain ⟨rfl : h = h', hv'⟩ := hv
        have hsame : f.opens start w = f.opens start w' := by
          rcases hw with he | hG
          · exact congrArg _ he
          · rw [(hopen _ _ hG start).1, (hopen _ _ hG start).2]
        have hrest : List.Forall₂ (Alike G) ((v, h) :: ps) ((v', h) :: qs) := .cons ⟨rfl, hv'⟩ hs
        rw [scan] at hm ⊢
        rw [hsame]
        cases hc : f.opens start w' && f.follows g ((v', h) :: qs) with
        | true =>
          obtain ⟨ho, hf⟩ := Bool.and_eq_true_iff.mp hc
          rw [hc, if_pos rfl, List.mem_cons] at hm
          rw [ho, follows_of_alike hr hs hf, Bool.true_and, if_pos rfl, List.mem_cons]
          rcases hm with rfl | hm
          · exact hv'.imp (fun he => .inl he.symm) fun hG => ⟨v, hG⟩
          · exact (ih _ (by simp only [List.length_cons]; omega) hs hm rfl).imp_left .inr
        | false =>
          rw [hc, if_neg (by simp)] at hm
          cases hd : f.opens start w' && f.follows g ((v, h) :: ps) with
          | false =>
            rw [if_neg (by simp)]
            exact ih _ (by simp) hrest hm rfl
          | true =>
            -- an import has gone; its name may now be a keyword for the word behind it
            rw [if_pos rfl, List.mem_cons]
            obtain ⟨ho, hf⟩ := Bool.and_eq_true_iff.mp hd
            rw [ho, Bool.true_and] at hc
            cases hs with
            | nil => simp [scan] at hm
            | @cons r r' ps qs hu hs =>
              obtain ⟨u, k⟩ := r
              obtain ⟨u', k'⟩ := r'
              obtain ⟨rfl : k = k', hu'⟩ := hu
              have hG : G u u' := exchanged_of_follows ⟨rfl, hu'⟩ hf hc
              rw [scan_skip (hopen _ _ hG _).1]
              rw [scan] at hm
              split at hm
              · rcases List.mem_cons.mp hm with rfl | hm
                · exact .inr ⟨u, hG⟩
                · exact (ih _ (by simp only [List.length_cons]; omega) hs hm rfl).imp_left .inr
              · rw [scan_skip (hopen _ _ hG _).2] at hm
                exact (ih _ (by simp only [List.length_cons]; omega) hs hm rfl).imp_left .inr

end Exchange

end Form

/-- A text is another one with names that begin with `cut` exchanged for names that begin with
`full`. The names stand behind a space and go on with a text that `A` allows. -/
inductive Renamed (cut full : List Char) (A : List Char → Prop) : List Char → List Char → Prop
  | nil : Renamed cut full A [] []
  | cons (c : Char) {a b : List Char} (h : Renamed cut full A a b) :
      Renamed cut full A (c :: a) (c :: b)
  | name {rest a b : List Char} (hA : A rest) (hn : ∀ c ∈ rest, isNamePart c = true)
      (ha : ∀ c ∈ a.head?, isNamePart c = false) (h : Renamed cut full A a b) :
      Renamed cut full A (' ' :: (cut ++ (rest ++ a))) (' ' :: (full ++ (rest ++ b)))

def Exchanged (cut full : List Char) (A : List Char → Prop) (w v : List Char) : Prop :=
  ∃ rest, A rest ∧ w = cut ++ rest ∧ v = full ++ rest

section Renamed
variable {cut full a b : List Char} {A : List Char → Prop}

theorem Renamed.append (h : Renamed cut full A a b) (p : List Char) :
    Renamed cut full A (p ++ a) (p ++ b) := by
  induction p with
  | nil => exact h
  | cons c p ih => exact .cons c ih

theorem Renamed.names_inv {r : List Char} (hr : ∀ c ∈ r, isNamePart c = true)
    (h : Renamed cut full A (r ++ a) b) : ∃ d, b = r ++ d ∧ Renamed cut full A a d := by
  induction r generalizing b with
  | nil => exact ⟨b, rfl, h⟩
  | cons c r ih =>
    have hc : c ≠ ' ' := by
      rintro rfl
      exact absurd (hr ' ' List.mem_cons_self) (by decide)
    generalize hx : c :: r ++ a = x at h
    cases h with
    | nil => cases hx
    | cons e h =>
      obtain ⟨rfl, rfl⟩ := List.cons.inj hx
      obtain ⟨d, rfl, hd⟩ := ih (fun e he => hr e (List.mem_cons_of_mem _ he)) h
      exact ⟨d, rfl, hd⟩
    | name => exact absurd (List.cons.inj hx).1 hc

theorem ofChars_names {w v g : List Char} {ps : Words} (hw : ∀ c ∈ w, isNamePart c = true)
    (h : ofChars a = (v, g) :: ps) : ofChars (w ++ a) = (w ++ v, g) :: ps := by
  induction w with
  | nil => exact h
  | cons c w ih =>
    change push c (ofChars (w ++ a)) = _
    rw [ih fun d hd => hw d (List.mem_cons_of_mem _ hd), push, if_pos (hw c List.mem_cons_self)]
    rfl

theorem ofChars_gap (h : ∀ c ∈ a.head?, isNamePart c = false) :
    ∃ g ps, ofChars a = ([], g) :: ps := by
  cases a with
  | nil => exact ⟨[], [], rfl⟩
  | cons c a =>
    obtain ⟨w, g, ps, hps⟩ := (tiled_ofChars a).exists_cons
    change ∃ g ps, push c (ofChars a) = _
    rw [hps, push, if_neg (by simp [h c rfl])]
    split
    · exact ⟨_, _, rfl⟩
    · exact ⟨_, _, rfl⟩

theorem Renamed.words (hcut : IsName cut) (hfull : IsName full) (h : Renamed cut full A a b) :
    ∃ w g ps qs, ofChars a = (w, g) :: ps ∧ ofChars b = (w, g) :: qs ∧
      List.Forall₂ (Form.Alike (Exchanged cut full A)) ps qs := by
  induction h with
  | nil => exact ⟨[], [], [], [], rfl, rfl, .nil⟩
  | @cons c a b h ih =>
    obtain ⟨w, g, ps, qs, ha, hb, hs⟩ := ih
    change ∃ w g ps qs, push c (ofChars a) = _ ∧ push c (ofChars b) = _ ∧ _
    rw [ha, hb, push, push]
    split
    · exact ⟨_, _, _, _, rfl, rfl, hs⟩
    · split
      · exact ⟨_, _, _, _, rfl, rfl, hs⟩
      · exact ⟨_, _, _, _, rfl, rfl, .cons ⟨rfl, .inl rfl⟩ hs⟩
  | @name rest a b hA hn hend h ih =>
    obtain ⟨w, g, ps, qs, ha, hb, hs⟩ := ih
    obtain ⟨_, _, hgap⟩ := ofChars_gap hend
    obtain ⟨⟨rfl, rfl⟩, rfl⟩ : (w = [] ∧ g = _) ∧ ps = _ := by simpa [ha] using hgap
    have hout {k d : List Char} {rs : Words} (hk : IsName k) (hd : ofChars d = ([], g) :: rs) :
        ofChars (' ' :: (k ++ (rest ++ d))) = ([], [' ']) :: (k ++ rest, g) :: rs := by
      have := ofChars_names hk.2 (ofChars_names hn hd)
      change push ' ' (ofChars (k ++ (rest ++ d))) = _
      rw [this, push, if_neg (by decide), if_neg (by simp [hk.1])]
      simp
    exact ⟨_, _, _, _, hout hcut ha, hout hfull hb, .cons ⟨rfl, .inr ⟨rest, hA, rfl, rfl⟩⟩ hs⟩

end Renamed

def endsInKeyword (w : List Char) : Bool :=
  "from".toList.isSuffixOf w || "import".toList.isSuffixOf w

theorem endsInKeyword_eq_false {w : List Char} :
    endsInKeyword w = false ↔ ¬ "from".toList <:+ w ∧ ¬ "import".toList <:+ w := by
  rw [endsInKeyword, Bool.or_eq_false_iff, Bool.eq_false_iff, Bool.eq_false_iff, ne_eq, ne_eq,
    List.isSuffixOf_iff_suffix, List.isSuffixOf_iff_suffix]

theorem takeWhile_names {u p : List Char} (hu : ∀ c ∈ u, isNamePart c = true) :
    (u ++ ' ' :: p).takeWhile isNamePart = u := by
  rw [List.takeWhile_append_of_pos hu, List.takeWhile_cons_of_neg (by decide), List.append_nil]

section Restore
variable {cut full name u v : List Char} {A : List Char → Prop}

def keyed (word name : List Char) : List Char := word ++ ' ' :: name

def exchangeFrom (cut full cs : List Char) : List Char :=
  replaceChars (keyed "from".toList (cut ++ [' '])) (keyed "from".toList (full ++ [' '])) 0 cs

def exchangeImport (cut full cs : List Char) : List Char :=
  replaceChars (keyed "import".toList cut) (keyed "import".toList full) 0 cs

theorem word_of_keyed_start {word name w y : List Char} (hword : ∀ c ∈ word, isNamePart c = true)
    (hw : ∀ c ∈ w, isNamePart c = true) (h : keyed word name <+: w ++ ' ' :: y) : word = w := by
  obtain ⟨r, hr⟩ := h
  have hwords := congrArg (List.takeWhile isNamePart) hr
  rwa [keyed, List.append_assoc, List.cons_append, takeWhile_names hword, takeWhile_names hw]
    at hwords

theorem from_piece_cases (h : keyed "from".toList (name ++ [' ']) = u ++ v) (hv : v ≠ []) :
    u = [] ∨ (∃ c r, v = c :: r ∧ c ∈ "rom ".toList) ∨ ∃ z w, name = z ++ w ∧ v = w ++ [' '] := by
  have hsplit : "from ".toList ++ (name ++ [' ']) = u ++ v := h
  rcases List.append_eq_append_iff.mp hsplit with ⟨z, -, hz⟩ | ⟨z, hz, rfl⟩
  · rcases List.append_eq_append_iff.mp hz with ⟨w, -, hw⟩ | ⟨w, hw, rfl⟩
    · obtain ⟨rfl, rfl⟩ : w = [] ∧ v = [' '] := by
        cases w with
        | nil => exact ⟨rfl, hw.symm⟩
        | cons d w => cases w <;> simp_all
      exact .inr (.inr ⟨name, [], (List.append_nil name).symm, rfl⟩)
    · exact .inr (.inr ⟨z, w, hw, rfl⟩)
  · cases u with
    | nil => exact .inl rfl
    | cons d u =>
      cases z with
      | nil => exact .inr (.inr ⟨[], name, rfl, rfl⟩)
      | cons c z =>
        obtain ⟨-, hrest⟩ := List.cons.inj (show 'f' :: "rom ".toList = d :: (u ++ c :: z) from hz)
        exact .inr (.inl ⟨c, _, rfl, hrest ▸ List.mem_append_right u List.mem_cons_self⟩)

private theorem import_piece_split (h : keyed "import".toList name = u ++ 'f' :: v) :
    ∃ z, u = "import ".toList ++ z ∧ name = z ++ 'f' :: v := by
  have hsplit : "import ".toList ++ name = u ++ 'f' :: v := h
  rcases List.append_eq_append_iff.mp hsplit with h | ⟨z, hz, hv⟩
  · exact h
  · cases z with
    | nil => exact ⟨[], by simpa using hz.symm, hv.symm⟩
    | cons d z =>
      obtain rfl : 'f' = d := (List.cons.inj hv).1
      have : 'f' ∈ "import ".toList := by simp [hz]
      exact absurd this (by decide)

/-- No name behind `import` begins in `from`, a space, a name that does not end with `import`, and a
space. -/
theorem not_import_in_from_piece (hname : ∀ c ∈ name, isNamePart c = true)
    (hk : ¬ "import".toList <:+ name) (h : keyed "from".toList (name ++ [' ']) = u ++ v)
    (hv : v ≠ []) (y : List Char) : ¬ keyed "import".toList cut <+: v ++ y := by
  intro hp
  have hfirst (c : Char) (r : List Char) (he : v = c :: r) : c = 'i' := by
    subst he
    exact (List.cons_prefix_cons.mp hp).1.symm
  rcases from_piece_cases h hv with rfl | ⟨c, r, he, hc⟩ | ⟨z, w, rfl, rfl⟩
  · exact absurd (hfirst 'f' _ h.symm) (by decide)
  · rw [hfirst c r he] at hc
    exact absurd hc (by decide)
  · rw [List.append_assoc] at hp
    exact hk ⟨z, by rw [word_of_keyed_start isName_import.2
      (fun c hc => hname c (List.mem_append_right z hc)) hp]⟩

private theorem exchangeImport_append (hfull : ∀ c ∈ full, isNamePart c = true)
    (hk : endsInKeyword full = false) (y : List Char) :
    exchangeImport cut full (keyed "from".toList (full ++ [' ']) ++ y) =
      keyed "from".toList (full ++ [' ']) ++ exchangeImport cut full y :=
  replaceChars_append fun _ _ hx hv =>
    not_import_in_from_piece hfull (endsInKeyword_eq_false.mp hk).2 hx hv y

/-- An occurrence of the first replacement that begins in a name behind `import` covers the
beginning of `from` there. -/
theorem prefix_from_of_end {piece v : List Char} (hcut : ∀ c ∈ cut, isNamePart c = true)
    (hx : keyed "import".toList cut = u ++ v) (hv : v ≠ [])
    (hor : v <+: keyed "from".toList piece ∨ keyed "from".toList piece <+: v) :
    ∃ z, u = "import ".toList ++ z ∧ cut = z ++ v ∧ v <+: "from".toList := by
  obtain ⟨c, v, rfl⟩ := List.exists_cons_of_ne_nil hv
  obtain rfl : c = 'f' := by
    rcases hor with h | h
    · exact (List.cons_prefix_cons.mp h).1
    · exact (List.cons_prefix_cons.mp h).1.symm
  obtain ⟨z, rfl, rfl⟩ := import_piece_split hx
  have hspace : ' ' ∉ 'f' :: v := by
    intro hs
    exact absurd (hcut ' ' (List.mem_append_right z hs)) (by decide)
  refine ⟨z, rfl, rfl, ?_⟩
  rcases hor with h | h
  · exact prefix_of_separated hspace h
  · exact absurd (h.subset (by simp [keyed])) hspace

private theorem exchangeFrom_prefix (hcut : ∀ c ∈ cut, isNamePart c = true)
    (hk : ∀ rest, A rest → endsInKeyword (cut ++ rest) = false) {cs : List Char}
    (hcs : ∀ y, keyed "import".toList cut ++ y <:+ cs → A (y.takeWhile isNamePart))
    (hp : keyed "import".toList cut <+: exchangeFrom cut full cs) :
    ∃ y, cs = keyed "import".toList cut ++ y ∧
      exchangeFrom cut full cs = keyed "import".toList cut ++ exchangeFrom cut full y := by
  rcases prefix_replaceChars hp (by simp [keyed]) with h | ⟨u, v, y, hx, hv, hy, hor⟩
  · exact h
  exfalso
  -- the cut name would go on to end with `from`
  obtain ⟨z, rfl, hz, t, ht⟩ := prefix_from_of_end hcut hx hv hor
  have hname : ∀ c ∈ t, isNamePart c = true :=
    fun c hc => isName_from.2 c (ht ▸ List.mem_append_right _ hc)
  have hA : A t := by
    have := hcs (t ++ ' ' :: (cut ++ [' '] ++ y)) ⟨[], by simp [hy, hz, keyed, ← ht]⟩
    rwa [takeWhile_names hname] at this
  exact (endsInKeyword_eq_false.mp (hk t hA)).1 ⟨z, by rw [← ht, hz, List.append_assoc]⟩

/-- The two replacements exchange names, if no name in question ends like a keyword. -/
theorem renamed_restored (hcut : IsName cut) (hfull : IsName full)
    (hk : ∀ rest, A rest → endsInKeyword (cut ++ rest) = false ∧
      endsInKeyword (full ++ rest) = false) (hA : A []) (cs : List Char)
    (hcs : ∀ y, keyed "import".toList cut ++ y <:+ cs → A (y.takeWhile isNamePart)) :
    Renamed cut full A cs (exchangeImport cut full (exchangeFrom cut full cs)) := by
  induction hn : cs.length using Nat.strongRecOn generalizing cs with
  | ind n ih =>
    subst hn
    by_cases hf : keyed "from".toList (cut ++ [' ']) <+: cs
    · obtain ⟨r, rfl⟩ := hf
      have hr := ih r.length (by simp [keyed]; omega) r
        (fun y hy => hcs y (hy.trans (List.suffix_append ..))) rfl
      rw [exchangeFrom, replaceChars_matched (by simp [keyed])]
      change Renamed cut full A _ (exchangeImport cut full
        (keyed "from".toList (full ++ [' ']) ++ exchangeFrom cut full r))
      rw [exchangeImport_append hfull.2 (by simpa using (hk [] hA).2)]
      have hspace : ∀ c ∈ (' ' :: r).head?, isNamePart c = false := by
        rintro c ⟨⟩
        decide
      have hname := Renamed.name hA (by simp) hspace (.cons ' ' hr)
      simpa [keyed] using hname.append "from".toList
    · cases cs with
      | nil => exact .nil
      | cons c cs =>
        have hstep : exchangeFrom cut full (c :: cs) = c :: exchangeFrom cut full cs :=
          replaceChars_of_not hf
        by_cases hi : keyed "import".toList cut <+: exchangeFrom cut full (c :: cs)
        · obtain ⟨y, hy, he⟩ := exchangeFrom_prefix hcut.2 (fun rest h => (hk rest h).1) hcs hi
          rw [he, exchangeImport, replaceChars_matched (by simp [keyed]), hy]
          change Renamed cut full A _ (keyed "import".toList full ++
            exchangeImport cut full (exchangeFrom cut full y))
          have hr := ih y.length (by rw [hy]; simp [keyed]; omega) y
            (fun z hz => hcs z (hz.trans (hy ▸ List.suffix_append ..))) rfl
          -- the name goes on as far as the text behind it is one
          have hrest : ∀ c ∈ y.takeWhile isNamePart, isNamePart c = true :=
            fun c hc => List.all_eq_true.mp List.all_takeWhile c hc
          have hend : ∀ c ∈ (y.dropWhile isNamePart).head?, isNamePart c = false := by
            have := List.head?_dropWhile_not isNamePart y
            intro c hc
            rw [hc] at this
            exact this
          rw [← List.takeWhile_append_dropWhile (p := isNamePart) (l := y)] at hr
          obtain ⟨d, hd, hr⟩ := hr.names_inv hrest
          rw [List.takeWhile_append_dropWhile] at hd
          have hname := Renamed.name (hcs y (hy ▸ List.suffix_refl _)) hrest hend hr
          rw [List.takeWhile_append_dropWhile, ← hd] at hname
          simpa [keyed] using hname.append "import".toList
        · rw [hstep] at hi ⊢
          rw [exchangeImport, replaceChars_of_not hi]
          exact .cons c (ih _ (by simp) cs
            (fun y hy => hcs y (hy.trans (List.suffix_cons ..))) rfl)

end Restore

variable {source fixed : String} {order : Arrangement} {c : CutImport} {lang : Option Language}

private theorem Form.mem_scan {f : Form} {start : Bool} {ps : Words} {v : List Char} (ht : Tiled ps)
    (hv : v ∈ f.scan start ps) : IsName v := by
  fun_induction Form.scan f start ps with
  | case1 => simp at hv
  | case2 => simp at hv
  | case3 start w g u h ps hc ih =>
    rcases List.mem_cons.mp hv with rfl | hv
    · cases ht with
      | cons hw hg hne hv ht => exact ⟨hv, ht.word⟩
    · cases ps with
      | nil => simp [Form.scan] at hv
      | cons p ps => exact ih ht.tail.tail hv
  | case4 start w g u h ps hc ih => exact ih ht.tail hv

theorem isName_of_mem_scriptImports {code m : String} (h : m ∈ scriptImports code) :
    IsName m.toList := by
  obtain ⟨f, -, v, hv, rfl⟩ := mem_scriptImports.mp h
  rw [String.toList_ofList]
  exact Form.mem_scan (tiled_ofChars _) hv

/-- What is left of a cut name is the name up to a mark. -/
structure CutImport.Fits (c : CutImport) (source fixed : String) : Prop where
  full : c.full ∈ scriptImports source
  cut : c.cut ∈ scriptImports fixed
  marked : ∃ mark more, c.full.toList = c.cut.toList ++ mark :: more ∧ (mark = '_' ∨ mark = '.')

private theorem fits_of_cutPair
    (h : cutPair? ["_", "."] (scriptImports source order) (scriptImports fixed order) = some c) :
    c.Fits source fixed := by
  obtain ⟨full, hfull, hc⟩ := List.exists_of_findSome?_eq_some h
  obtain ⟨part, hpart, rfl⟩ := Option.map_eq_some_iff.mp hc
  refine ⟨mem_scriptImports_byName.mp hfull,
    mem_scriptImports_byName.mp (List.mem_of_find?_eq_some hpart), ?_⟩
  have := List.find?_some hpart
  simp only [List.any_cons, List.any_nil, Bool.or_false, Bool.or_eq_true, goesOn, startsWith,
    List.isPrefixOf_iff_prefix, String.toList_append] at this
  rcases this with ⟨more, hm⟩ | ⟨more, hm⟩
  · exact ⟨'_', more, by simpa using hm.symm, .inl rfl⟩
  · exact ⟨'.', more, by simpa using hm.symm, .inr rfl⟩

private theorem baseOf_cases (name : String) : baseOf name = name ∨ ∃ mark more,
    name.toList = (baseOf name).toList ++ mark :: more ∧ (mark = '_' ∨ mark = '.') := by
  obtain ⟨sep, hsep, hbase⟩ : ∃ sep, (sep = '_' ∨ sep = '.') ∧
      (baseOf name).toList = (splitChars sep name.toList).headD [] := by
    refine ⟨if contains name "_" then '_' else '.', ?_, ?_⟩
    · split
      · exact .inl rfl
      · exact .inr rfl
    · rw [baseOf, splitOn]
      cases splitChars (if contains name "_" then '_' else '.') name.toList <;> simp
  rcases splitChars_head sep name.toList with h | ⟨more, h⟩
  · exact .inl (String.toList_inj.mp (hbase.trans h))
  · exact .inr ⟨sep, more, by rw [hbase]; exact h, hsep⟩

private theorem fits_of_lostModule
    (h : lostModule? (scriptImports source order) (scriptImports fixed order) = some c) :
    c.Fits source fixed := by
  obtain ⟨full, hfull, hc⟩ := List.exists_of_findSome?_eq_some h
  split at hc
  · cases hc
  split at hc
  · rename_i hlost
    simp only [Bool.and_eq_true, Bool.not_eq_true', List.contains_eq_mem, decide_eq_true_eq,
      decide_eq_false_iff_not] at hlost
    obtain rfl := Option.some.inj hc
    refine ⟨mem_scriptImports_byName.mp hfull, mem_scriptImports_byName.mp hlost.2,
      (baseOf_cases full).resolve_left fun he => hlost.1 ?_⟩
    exact he ▸ hlost.2
  · cases hc

theorem fits_of_scriptCut (h : scriptCut? source fixed order = some c) : c.Fits source fixed := by
  rw [scriptCut?, Option.orElse_eq_orElse, Option.orElse_eq_or, Option.or_eq_some_iff] at h
  rcases h with h | ⟨-, h⟩
  · exact fits_of_cutPair h
  · exact fits_of_lostModule h

theorem renameImport_toList (old new line : String) : (Repair.renameImport old new line).toList =
    exchangeImport old.toList new.toList (exchangeFrom old.toList new.toList line.toList) := by
  have heq : Repair.renameImport old new line =
      replace (replace line ("from " ++ old ++ " ") ("from " ++ new ++ " ")) ("import " ++ old)
        ("import " ++ new) := rfl
  rw [heq, replace_toList (by simp), replace_toList (by simp)]
  simp [exchangeImport, exchangeFrom, keyed]

private theorem restoreImport_getD (short full line : String) :
    (Repair.restoreImport short full line).getD line = Repair.renameImport short full line := by
  unfold Repair.restoreImport
  split
  · rename_i h
    unfold changed
    split
    · rename_i he
      exact he.symm
    · rfl
  · rename_i h
    simp only [Bool.or_eq_true, not_or, contains_iff] at h
    rw [Repair.renameImport, replace_eq_self _ h.1, replace_eq_self _ h.2]
    rfl

theorem truncatedImport_lines (code short full : String) :
    (Repair.truncatedImport code short full).code =
      unlines ((lines code).map (Repair.renameImport short full)) := by
  simp only [Repair.truncatedImport, Edit.ofLines, restoreImport_getD]

theorem truncatedImport_code {code short full : String} (h : '\n' ∉ short.toList) :
    (Repair.truncatedImport code short full).code = Repair.renameImport short full code := by
  rw [truncatedImport_lines]
  refine unlines_map_lines (F := exchangeImport short.toList full.toList ∘
    exchangeFrom short.toList full.toList) (renameImport_toList short full) (fun x y => ?_) code
  simp only [Function.comp_apply]
  rw [exchangeFrom, replaceChars_separated (by simp [keyed]) (by simp [keyed, h]), exchangeImport,
    replaceChars_separated (by simp [keyed]) (by simp [keyed, h])]
  rfl

/-- What stands behind the cut name wherever `import` and a space stand before it, as far as the
name goes on. -/
def CutImport.tails (c : CutImport) (code : String) : List String :=
  (code.toList.tails.filter (keyed "import".toList c.cut.toList).isPrefixOf).map fun cs =>
    String.ofList ((cs.drop (keyed "import".toList c.cut.toList).length).takeWhile isNamePart)

def CutImport.isClear (c : CutImport) (code : String) : Bool :=
  ("" :: c.tails code).all fun rest =>
    !endsInKeyword (c.cut ++ rest).toList && !endsInKeyword (c.full ++ rest).toList

private theorem CutImport.mem_tails {code : String} {y : List Char}
    (h : keyed "import".toList c.cut.toList ++ y <:+ code.toList) :
    String.ofList (y.takeWhile isNamePart) ∈ c.tails code := by
  refine List.mem_map.mpr ⟨_, List.mem_filter.mpr ⟨(List.mem_tails _ _).mpr h, by simp⟩, ?_⟩
  rw [List.drop_left]

theorem opens_eq_false {f : Form} (hf : f ∈ forms) {w : List Char} (h : endsInKeyword w = false)
    (start : Bool) : f.opens start w = false := by
  rw [endsInKeyword_eq_false] at h
  have hsuffix {word : List Char} (hw : ¬ word <:+ w) : word.isSuffixOf w = false := by
    rwa [Bool.eq_false_iff, ne_eq, List.isSuffixOf_iff_suffix]
  simp only [forms, List.mem_cons, List.not_mem_nil, or_false] at hf
  rcases hf with rfl | rfl | rfl
  · exact hsuffix h.1
  · rw [Form.opens, Bool.and_eq_false_iff]
    right
    rw [beq_eq_false_iff_ne]
    rintro rfl
    exact h.2 (List.suffix_refl _)
  · exact hsuffix h.2

private theorem reflects_exchanged {f : Form} (hf : f ∈ forms) {cut full more : List Char}
    {mark : Char}
    {A : List Char → Prop} (hfull : full = cut ++ mark :: more) (hmark : mark = '_' ∨ mark = '.') :
    f.Reflects (Exchanged cut full A) := by
  rintro word a rfl _ _ ⟨rest, -, rfl, rfl⟩ hp
  have hno : mark ∉ a := by
    have hall : ∀ g ∈ forms, ∀ word a, g = .between word a → '_' ∉ a ∧ '.' ∉ a := by
      intro g hg word a hga
      simp only [forms, List.mem_cons, List.not_mem_nil, or_false] at hg
      rcases hg with rfl | rfl | rfl <;> cases hga <;> decide
    obtain ⟨h1, h2⟩ := hall _ hf _ _ rfl
    rcases hmark with rfl | rfl
    · exact h1
    · exact h2
  rw [hfull, List.append_assoc, List.cons_append] at hp
  exact (prefix_of_separated hno hp).trans (List.prefix_append ..)

/-- A clear restoration imports nothing but what was imported, and the full name with what stood
behind the cut one. -/
theorem imports_of_restored (hc : c.Fits source fixed)
    (hclear : c.isClear fixed = true) {m : String}
    (hm : m ∈ scriptImports (Repair.truncatedImport fixed c.cut c.full).code) :
    m ∈ scriptImports fixed ∨ ∃ rest ∈ "" :: c.tails fixed, m = c.full ++ rest := by
  have hcut := isName_of_mem_scriptImports hc.cut
  have hfull := isName_of_mem_scriptImports hc.full
  obtain ⟨mark, more, hmark, hor⟩ := hc.marked
  let A (rest : List Char) : Prop := String.ofList rest ∈ "" :: c.tails fixed
  have hk (rest : List Char) (hA : A rest) : endsInKeyword (c.cut.toList ++ rest) = false ∧
      endsInKeyword (c.full.toList ++ rest) = false := by
    simpa using List.all_eq_true.mp hclear _ hA
  have hline : '\n' ∉ c.cut.toList := fun h => absurd (hcut.2 _ h) (by decide)
  rw [truncatedImport_code hline, mem_scriptImports, renameImport_toList] at hm
  obtain ⟨f, hf, v, hv, rfl⟩ := hm
  have hren := renamed_restored (A := A) hcut hfull hk (List.mem_cons_self ..) fixed.toList
    fun y hy => List.mem_cons_of_mem _ (CutImport.mem_tails hy)
  obtain ⟨w, g, ps, qs, hps, hqs, hs⟩ := hren.words hcut hfull
  have hall : List.Forall₂ (Form.Alike (Exchanged c.cut.toList c.full.toList A)) ((w, g) :: ps)
      ((w, g) :: qs) := .cons ⟨rfl, .inl rfl⟩ hs
  rw [hqs] at hv
  have hopen (u x : List Char) (hx : Exchanged c.cut.toList c.full.toList A u x) (start : Bool) :
      f.opens start u = false ∧ f.opens start x = false := by
    obtain ⟨rest, hA, rfl, rfl⟩ := hx
    exact ⟨opens_eq_false hf (hk rest hA).1 start, opens_eq_false hf (hk rest hA).2 start⟩
  rcases Form.mem_scan_of_alike hopen (reflects_exchanged hf hmark hor) hall hv with
    hv | ⟨_, rest, hA, -, rfl⟩
  · exact .inl (mem_scriptImports.mpr ⟨f, hf, v, hps ▸ hv, rfl⟩)
  · exact .inr ⟨_, hA, by rw [← String.toList_inj]; simp⟩

theorem importCut_of_objection (h : objection? lang source fixed order = some (.cutImport c)) :
    importCut? lang source fixed order = some c := by
  have hsize : sizeObjection? source fixed ≠ some (.cutImport c) := by
    simp only [sizeObjection?]
    split <;> simp
  have hnames : namesObjection? source fixed ≠ some (.cutImport c) := by
    simp only [namesObjection?]
    split <;> simp
  have hbalance : balanceObjection? source fixed ≠ some (.cutImport c) := by
    intro hb
    obtain ⟨k, -, hk⟩ := List.exists_of_findSome?_eq_some hb
    dsimp only at hk
    split at hk <;> cases hk
  have hloss : lossObjection? lang source fixed ≠ some (.cutImport c) := by
    intro hb
    obtain ⟨form, -, hk⟩ := List.exists_of_findSome?_eq_some hb
    split at hk <;> cases hk
  unfold objection? at h
  split at h
  · cases h
  · simp only [Option.orElse_eq_orElse, Option.orElse_eq_or, Option.or_eq_some_iff, hsize, hnames,
      hbalance, hloss, false_or] at h
    obtain ⟨-, -, -, -, h⟩ := h
    obtain ⟨d, hd, he⟩ := Option.map_eq_some_iff.mp h
    cases he
    exact hd

theorem accept_outcome (lang : Option Language) (source fixed : String) (order : Arrangement) :
    let taken := accept lang source fixed order
    (taken.applied = true ∧ taken.code = fixed ∧ objection? lang source fixed order = none) ∨
    (∃ c, objection? lang source fixed order = some (.cutImport c) ∧ taken.applied = true ∧
      taken.code = (Repair.truncatedImport fixed c.cut c.full).code ∧
      objection? lang source taken.code order = none) ∨
    (taken.applied = false ∧ taken.code = source ∧ objection? lang source fixed order ≠ none) := by
  cases ho : objection? lang source fixed order with
  | none => simp [accept, ho, Edit.keep]
  | some o =>
    cases o with
    | cutImport c =>
      by_cases hr : (decide ((Repair.truncatedImport fixed c.cut c.full).code ≠ fixed) &&
          (objection? lang source (Repair.truncatedImport fixed c.cut c.full).code
            order).isNone) = true
      · have hnone := (Bool.and_eq_true_iff.mp hr).2
        simp only [accept, ho, if_pos hr]
        exact .inr (.inl ⟨c, rfl, trivial, rfl, by simpa using hnone⟩)
      · simp only [accept, ho, if_neg hr]
        simp
    | _ => simp [accept, ho, Edit.decline]

theorem accept_cases (h : (accept lang source fixed order).applied = true) :
    (accept lang source fixed order).code = fixed ∨
      ∃ c, importCut? lang source fixed order = some c ∧
        (accept lang source fixed order).code =
          (Repair.truncatedImport fixed c.cut c.full).code := by
  rcases accept_outcome lang source fixed order with ⟨-, he, -⟩ | ⟨c, ho, -, he, -⟩ | ⟨hn, -⟩
  · exact .inl he
  · exact .inr ⟨c, importCut_of_objection ho, he⟩
  · rw [hn] at h
    cases h

/-- An edit that is taken imports nothing but what the text before or the edit does, and full names
that the restoration of a cut one put before the rest of a longer name. Where several names were cut
the order of the imports decides which one is restored, and this holds for every order. -/
theorem accepted_imports (source fixed : String) (order : Arrangement)
    (h : (accept (some .python) source fixed order).applied = true)
    (hclear : ∀ c, scriptCut? source fixed order = some c → c.isClear fixed = true) :
    ∀ m ∈ scriptImports (accept (some .python) source fixed order).code,
      m ∈ scriptImports source ∨ m ∈ scriptImports fixed ∨
        ∃ c, scriptCut? source fixed order = some c ∧
          ∃ rest ∈ c.tails fixed, rest ≠ "" ∧ m = c.full ++ rest := by
  intro m hm
  rcases accept_cases h with he | ⟨c, hc, he⟩
  · exact .inr (.inl (he ▸ hm))
  · have hfits : c.Fits source fixed := fits_of_scriptCut hc
    rw [he] at hm
    rcases imports_of_restored hfits (hclear c hc) hm with hm | ⟨rest, hrest, rfl⟩
    · exact .inr (.inl hm)
    · by_cases hne : rest = ""
      · exact .inl (by simpa [hne] using hfits.full)
      · exact .inr (.inr ⟨c, hc, rest, (List.mem_cons.mp hrest).resolve_left hne, hne, rfl⟩)

private theorem namesObjection_eq_none (h : (name.findAll fixed).length ≤ 5) :
    namesObjection? source fixed = none := by
  have hnames : (names fixed).length ≤ 5 := (length_sorted_le _).trans (by rwa [List.length_map])
  have hnew : (newNames source fixed).length ≤ 5 := (List.length_filter_le ..).trans hnames
  rw [namesObjection?, if_neg (by omega)]

theorem objection_eq (hne : fixed ≠ "")
    (hnew : fixed ≠ source) (hsize : sizeObjection? source fixed = none)
    (hnames : (name.findAll fixed).length ≤ 5) (hbalance : balanceObjection? source fixed = none)
    (hloss : lossObjection? lang source fixed = none) :
    objection? lang source fixed order = (importCut? lang source fixed order).map .cutImport := by
  rw [objection?, if_neg (by simp [hne, hnew]), hsize, namesObjection_eq_none hnames, hbalance,
    hloss]
  rfl

/-- A cut name is restored in the name of another module too, which nothing has imported. -/
theorem graft_accepted :
    let source := "import db_io\nimport dbx"
    let fixed := "import db\nimport dbx"
    let taken := accept (some .python) source fixed
    "db_iox" ∈ scriptImports taken.code ∧ "db_iox" ∉ scriptImports source ∧
      "db_iox" ∉ scriptImports fixed ∧
      ∃ c, scriptCut? source fixed = some c ∧
        ∃ rest ∈ c.tails fixed, rest ≠ "" ∧ "db_iox" = c.full ++ rest := by
  intro source fixed taken
  let code := "import db_io\nimport db_iox"
  have hsource : scriptImports source = ["db_io", "dbx"] :=
    Eq.trans (b := sorted ["db_io", "dbx"]) (congrArg sorted (by decide +kernel))
      (sorted_eq_self (by decide))
  have hfixed : scriptImports fixed = ["db", "dbx"] :=
    Eq.trans (b := sorted ["db", "dbx"]) (congrArg sorted (by decide +kernel))
      (sorted_eq_self (by decide))
  have hcode : scriptImports code = ["db_io", "db_iox"] :=
    Eq.trans (b := sorted ["db_io", "db_iox"]) (congrArg sorted (by decide +kernel))
      (sorted_eq_self (by decide))
  have hcut : scriptCut? source fixed = some ⟨"db_io", "db"⟩ := by
    rw [scriptCut?, hsource, hfixed]
    decide +kernel
  have hwhole : scriptCut? source code = none := by
    rw [scriptCut?, hsource, hcode]
    decide +kernel
  have hfirst : objection? (some .python) source fixed = some (.cutImport ⟨"db_io", "db"⟩) := by
    rw [objection_eq (by decide) (by decide) (by decide +kernel) (by decide +kernel)
      (by decide +kernel) (by decide +kernel), importCut?, hcut]
    rfl
  have hsecond : objection? (some .python) source code = none := by
    rw [objection_eq (by decide) (by decide) (by decide +kernel) (by decide +kernel)
      (by decide +kernel) (by decide +kernel), importCut?, hwhole]
    rfl
  have hrestored : (Repair.truncatedImport fixed "db" "db_io").code = code := by decide +kernel
  have htaken : taken.applied = true ∧ taken.code = code := by
    have hne : code ≠ fixed := by decide
    simp [taken, accept, hfirst, hrestored, hsecond, hne]
  have hin : "db_iox" ∈ scriptImports taken.code := by
    rw [htaken.2, hcode]
    decide
  have hclear (c : CutImport) (hc : scriptCut? source fixed = some c) : c.isClear fixed = true := by
    obtain rfl := Option.some.inj (hcut.symm.trans hc)
    decide +kernel
  have hout : "db_iox" ∉ scriptImports source ∧ "db_iox" ∉ scriptImports fixed := by
    rw [hsource, hfixed]
    decide
  have hgraft := accepted_imports source fixed .byName htaken.1 hclear "db_iox" hin
  exact ⟨hin, hout.1, hout.2, (hgraft.resolve_left hout.1).resolve_left hout.2⟩

end Mender.Review
