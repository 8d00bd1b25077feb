import Mender.Diagnostic.Target
import Mender.Proofs.Disk
import Mender.Proofs.LocalFix
import Mender.Sandbox.Container

/-! Which places of a script's trace lead to a file of the project. A trace names a file by its path
in the container, and a place is taken if that path holds the directory of the project, as it was
given, or does not begin at the root. A place that is spelled out is found in every trace: matches
do not overlap, and none before it can reach into it. Main statement: the places in a file are
located in all traces just if its name holds no quotation mark and the container's path holds the
directory of the project. -/
namespace Mender.Diagnostic
open Text Pattern

def beforePath : List Char := "File \"".toList

def beforeLine : List Char := "\", line ".toList

def spellPlace (path digits : List Char) : List Char :=
  beforePath ++ path ++ beforeLine ++ digits

def unquoted : CharClass := .except (.union .none (.literal '"'))

theorem holds_unquoted {x : Char} : unquoted.holds x = true ↔ x ≠ '"' := by
  simp [unquoted, CharClass.holds]

theorem unquoted_of_not_mem {w : List Char} (h : '"' ∉ w) : ∀ x ∈ w, unquoted.holds x = true := by
  intro x hx
  rw [holds_unquoted]
  rintro rfl
  exact h hx

theorem scriptPlace_eq : scriptPlace = spelled beforePath
    (.seq (.group 1 (plus unquoted)) (spelled beforeLine (.group 2 (plus .digit)))) := by
  decide +kernel

section Match
variable {before post path digits : List Char} {pos : Nat}

theorem matchAt_place (before : List Char) (pos : Nat) (hp : path ≠ []) (hq : '"' ∉ path)
    (hne : digits ≠ []) (hd : ∀ d ∈ digits, isDecimal d = true)
    (hpost : ∀ d ∈ post.head?, isDecimal d = false) :
    scriptPlace.matchAt false ⟨before, spellPlace path digits ++ post, pos, []⟩ =
      some ⟨pos, String.ofList (spellPlace path digits),
        [(2, String.ofList digits), (1, String.ofList path)]⟩ := by
  have hgoes : ∃ t, scriptPlace.Goes ⟨before, spellPlace path digits ++ post, pos, []⟩ t ∧
      t.pos = pos + (spellPlace path digits).length ∧
      t.groups = [(2, String.ofList digits), (1, String.ofList path)] := by
    rw [scriptPlace_eq]
    simp only [spellPlace, List.append_assoc]
    have hpath (s : Cursor) (hs : s.rest = path ++ (beforeLine ++ (digits ++ post))) :=
      (goes_plus hs hp (unquoted_of_not_mem hq) (not_holds_head (by decide) _)).group hs 1
    have hdigits (s : Cursor) (hs : s.rest = digits ++ post) :=
      (goes_plus (c := .digit) hs hne hd hpost).group hs 2
    refine ⟨_, goes_spelled rfl ((hpath _ rfl).seq (goes_spelled rfl (hdigits _ rfl))), ?_, rfl⟩
    simp only [Cursor.past, Cursor.noting, List.length_append]
    omega
  obtain ⟨t, hgoes, hpos, hgroups⟩ := hgoes
  rw [hgoes.matchAt, hgroups]
  simp only [hpos, Nat.add_sub_cancel_left, List.take_left]

theorem of_matchAt {cs : List Char} {m : Found}
    (h : scriptPlace.matchAt false ⟨before, cs, pos, []⟩ = some m) :
    ∃ q es r, m.text.toList = spellPlace q es ∧ cs = spellPlace q es ++ r ∧ '"' ∉ q ∧
      ∀ e ∈ es, isDecimal e = true := by
  obtain ⟨t, w, hm, hw, htext, -⟩ := matchAt_eq_some h
  rw [scriptPlace_eq] at hm
  obtain ⟨u, hu, v, ⟨v', hq, rfl⟩, hm⟩ := matches_spelled hm
  obtain ⟨q, hv, hquote, -⟩ := matches_plus hq
  obtain ⟨x, hx, t', hd, rfl⟩ := matches_spelled hm
  obtain ⟨es, ht, hes, -⟩ := matches_plus hd
  have hrest : cs = spellPlace q es ++ t'.rest := by
    rw [spellPlace, List.append_assoc, List.append_assoc, List.append_assoc, ← ht.rest, ← hx.rest,
      ← hv.rest, ← hu.rest]
  have hsame : w = spellPlace q es := List.append_cancel_right (hw.rest.symm.trans hrest)
  refine ⟨q, es, t'.rest, htext.trans hsame, hrest, fun hm => ?_, hes⟩
  exact holds_unquoted.mp (hquote _ hm) rfl

end Match

private theorem not_overlap {q es pre a r x : List Char} (hq : '"' ∉ q)
    (hes : ∀ e ∈ es, isDecimal e = true) (hpre : pre ≠ []) (ha : a ≠ [])
    (hm : spellPlace q es = pre ++ a) (hs : beforePath ++ '/' :: x = a ++ r) : False := by
  obtain ⟨b, a', rfl⟩ := List.exists_cons_of_ne_nil ha
  obtain rfl : 'F' = b := (List.cons.inj hs).1
  have hline : 'F' ∉ beforeLine ++ es := by
    rw [List.mem_append, not_or]
    refine ⟨by decide, fun hF => ?_⟩
    exact absurd (hes 'F' hF) (by decide)
  rw [spellPlace, List.append_assoc, List.append_assoc] at hm
  -- the letter stands once in what comes before a path
  obtain ⟨c, hc⟩ : ∃ c, q ++ (beforeLine ++ es) = c ++ 'F' :: a' := by
    rcases List.append_eq_append_iff.mp hm with ⟨c, -, hc⟩ | ⟨c, hc, hc'⟩
    · exact ⟨c, hc⟩
    · cases c with
      | nil => exact ⟨[], hc'.symm⟩
      | cons b c =>
        obtain ⟨p, pre, rfl⟩ := List.exists_cons_of_ne_nil hpre
        obtain rfl : 'F' = b := (List.cons.inj hc').1
        have hF : 'F' ∈ beforePath.tail := by
          rw [hc]
          simp
        exact absurd hF (by decide)
  rcases List.append_eq_append_iff.mp hc with ⟨d, rfl, hd⟩ | ⟨d, rfl, hd⟩
  · exact hline (hd ▸ List.mem_append_right d List.mem_cons_self)
  · -- from the first quotation mark on, one text has a comma and the other one a slash
    have hpos : ∀ y ∈ d, decide (y ≠ '"') = true := by
      intro y hy
      rw [decide_eq_true_eq]
      rintro rfl
      exact hq (List.mem_append_right c hy)
    rw [hd, List.append_assoc, List.append_assoc] at hs
    have hdrop := congrArg (List.dropWhile fun y => decide (y ≠ '"')) hs
    rw [List.dropWhile_append_of_pos hpos] at hdrop
    have hslash : '/' = ',' := (List.cons.inj (List.cons.inj hdrop).2).1
    exact absurd hslash (by decide)

theorem moves_scriptPlace : scriptPlace.Moves := by
  rw [scriptPlace_eq]
  exact moves_spelled _ (by decide)

theorem mem_foundFrom {before pre post path digits : List Char} {pos : Nat} (hq : '"' ∉ path)
    (hroot : path.head? = some '/') (hne : digits ≠ []) (hd : ∀ d ∈ digits, isDecimal d = true)
    (hpost : ∀ d ∈ post.head?, isDecimal d = false) :
    ∃ m ∈ scriptPlace.foundFrom before pos (pre ++ (spellPlace path digits ++ post)),
      m.groups = [(2, String.ofList digits), (1, String.ofList path)] := by
  obtain ⟨path, rfl⟩ := List.head?_eq_some_iff.mp hroot
  generalize htail : spellPlace ('/' :: path) digits ++ post = tail
  induction hn : pre.length using Nat.strongRecOn generalizing before pre pos with
  | ind n ih =>
  subst hn
  cases pre with
  | nil =>
    have hm := matchAt_place before pos (List.cons_ne_nil '/' path) hq hne hd hpost
    rw [htail] at hm
    rw [List.nil_append, foundFrom_of_some moves_scriptPlace hm (r := post) (by simp [← htail])]
    exact ⟨_, List.mem_cons_self, rfl⟩
  | cons c pre =>
    rw [List.cons_append]
    cases hm : scriptPlace.matchAt false ⟨before, c :: (pre ++ tail), pos, []⟩ with
    | none =>
      rw [foundFrom_of_none hm]
      exact ih pre.length (Nat.lt_succ_self _) rfl
    | some m =>
      obtain ⟨q, es, r, htext, hr, hquote, hes⟩ := of_matchAt hm
      -- the match ends before the place, which is still to come
      obtain ⟨left, hleft, rfl⟩ :
          ∃ left, c :: pre = spellPlace q es ++ left ∧ r = left ++ tail := by
        rw [← List.cons_append, List.append_eq_append_iff] at hr
        rcases hr with ⟨a, ha, ha'⟩ | h
        · cases a with
          | nil => exact ⟨[], by simpa using ha.symm, by simpa using ha'.symm⟩
          | cons b a =>
            have hs :
                beforePath ++ '/' :: (path ++ beforeLine ++ digits ++ post) = b :: a ++ r := by
              rw [← ha', ← htail]
              simp [spellPlace]
            exfalso
            exact not_overlap hquote hes (List.cons_ne_nil c pre) (List.cons_ne_nil b a) ha hs
        · exact h
      have hshort : left.length < (c :: pre).length := by
        rw [hleft, List.length_append]
        exact Nat.lt_add_of_pos_left (List.length_pos_of_ne_nil (List.cons_ne_nil 'F' _))
      rw [foundFrom_of_some moves_scriptPlace hm (htext ▸ hr)]
      obtain ⟨found, hf, hg⟩ := ih left.length hshort rfl
      exact ⟨found, List.mem_cons_of_mem m hf, hg⟩

section Targets
variable {text project file : String}

theorem path_inside : ∀ e ∈ scriptPlace.inside, e.1 = 1 → e.2 = plus unquoted := by decide +kernel

private theorem line_inside :
    ∀ e ∈ scriptPlace.inside, e.1 = 2 → e.2 = plus .digit := by decide +kernel

/-- The place of a match that lies in a project, or is not named from the root. -/
def targetIn? (text project : String) (m : Found) : Option Target :=
  if contains (m.group 1) project || !startsWith (m.group 1) "/" then
    some ⟨Path.baseName (m.group 1), digitsValue (m.group 2).toList, take 100 (drop m.start text)⟩
  else none

private theorem Readable.scriptTargets (h : Readable text) : scriptTargets text project =
    .ok ((scriptPlace.findAll text).filterMap (targetIn? text project)) := by
  have htarget : ∀ m ∈ scriptPlace.findAll text, target text m =
      .ok ⟨m.group 1, digitsValue (m.group 2).toList, take 100 (drop m.start text)⟩ := by
    intro m hm
    rw [target, h.readNumber (drawn_of_findAll hm) line_inside]
    rfl
  rw [Diagnostic.scriptTargets, mapM_eq_ok_map htarget]
  change Except.ok _ = _
  rw [List.filterMap_map]
  rfl

/-- The places named in a trace of the project lead to a line of a file. -/
def Located (project text file : String) (n : Nat) : Prop :=
  ∃ ts, targets (some .python) text project = .ok ts ∧ ∃ t ∈ ts, t.file = file ∧ t.line = n

theorem located_iff_found {n : Nat} (h : Readable text) : Located project text file n ↔
    ∃ m ∈ scriptPlace.findAll text,
      (contains (m.group 1) project = true ∨ startsWith (m.group 1) "/" = false) ∧
      Path.baseName (m.group 1) = file ∧ digitsValue (m.group 2).toList = n := by
  have hts : targets (some .python) text project = .ok _ := h.scriptTargets
  constructor
  · rintro ⟨ts, hts', t, ht, rfl, hline⟩
    obtain rfl := Except.ok.inj (hts.symm.trans hts')
    obtain ⟨m, hm, ht⟩ := List.mem_filterMap.mp ht
    unfold targetIn? at ht
    split at ht
    · rename_i hin
      obtain rfl := Option.some.inj ht
      exact ⟨m, hm, by simpa using hin, rfl, Int.ofNat_inj.mp hline⟩
    · cases ht
  · rintro ⟨m, hm, hin, rfl, rfl⟩
    refine ⟨_, hts, _, List.mem_filterMap.mpr ⟨m, hm, if_pos ?_⟩, rfl, rfl⟩
    simpa using hin

def place (file : String) (n : Nat) : String :=
  "File \"" ++ Sandbox.inWorkspace file ++ "\", line " ++ toString n

theorem toList_place (n : Nat) : (place file n).toList =
    spellPlace (Sandbox.inWorkspace file).toList (Nat.toDigits 10 n) := by
  have hn : (toString n).toList = Nat.toDigits 10 n := String.toList_ofList
  rw [place, String.toList_append, String.toList_append, String.toList_append, hn]
  rfl

def ReportsAt (text file : String) (n : Nat) : Prop :=
  ∃ pre post, text.toList = pre ++ ((place file n).toList ++ post) ∧
    ∀ d ∈ post.head?, isDecimal d = false

private theorem baseName_inWorkspace (hf : '/' ∉ file.toList) :
    Path.baseName (Sandbox.inWorkspace file) = file := by
  have hlead : Path.lead Sandbox.workspace = Sandbox.workspace ++ "/" := by decide
  have hjoin : Path.join Sandbox.workspace file = Sandbox.inWorkspace file := by
    rw [Path.join_eq hf, hlead, Sandbox.inWorkspace]
  rw [← hjoin, Path.baseName_join hf]

theorem toList_inWorkspace :
    (Sandbox.inWorkspace file).toList = '/' :: ("workspace/".toList ++ file.toList) := by
  rw [Sandbox.inWorkspace, String.toList_append, String.toList_append]
  rfl

private theorem head_inWorkspace : (Sandbox.inWorkspace file).toList.head? = some '/' := by
  rw [toList_inWorkspace]
  rfl

theorem quote_inWorkspace (hq : '"' ∉ file.toList) : '"' ∉ (Sandbox.inWorkspace file).toList := by
  rw [toList_inWorkspace, List.mem_cons, List.mem_append, not_or, not_or]
  exact ⟨by decide, by decide, hq⟩

theorem located_of_contained {n : Nat} (hf : '/' ∉ file.toList) (hq : '"' ∉ file.toList)
    (hp : contains (Sandbox.inWorkspace file) project = true) (hr : Readable text)
    (h : ReportsAt text file n) : Located project text file n := by
  obtain ⟨pre, post, htext, hpost⟩ := h
  obtain ⟨m, hm, hg⟩ := mem_foundFrom (quote_inWorkspace hq) head_inWorkspace Nat.toDigits_ne_nil
    (isDecimal_toDigits n) hpost
  rw [← toList_place, ← htext, ← findAll_eq] at hm
  have hpath : m.group 1 = Sandbox.inWorkspace file := by
    rw [Found.group, Found.group?, hg, String.ofList_toList]
    rfl
  have hline : m.group 2 = String.ofList (Nat.toDigits 10 n) := by
    rw [Found.group, Found.group?, hg]
    rfl
  refine (located_iff_found hr).mpr ⟨m, hm, .inl (hpath ▸ hp), ?_, ?_⟩
  · rw [hpath, baseName_inWorkspace hf]
  · rw [hline, String.toList_ofList, digitsValue_toDigits]

private theorem findAll_place (n : Nat) (hq : '"' ∉ file.toList) :
    ∀ m ∈ scriptPlace.findAll (place file n), m.group 1 = Sandbox.inWorkspace file := by
  have hne : (Sandbox.inWorkspace file).toList ≠ [] := by simp [toList_inWorkspace]
  have hend : ∀ d ∈ ([] : List Char).head?, isDecimal d = false := by simp
  have hm := matchAt_place [] 0 hne (quote_inWorkspace hq) Nat.toDigits_ne_nil
    (isDecimal_toDigits n) hend
  rw [← toList_place, List.append_nil] at hm
  intro m hfound
  rw [findAll_eq, foundFrom_of_some moves_scriptPlace hm (r := []) (by simp),
    foundFrom_nil moves_scriptPlace, List.mem_singleton] at hfound
  rw [hfound]
  exact String.ofList_toList

private theorem readable_place (hr : Readable file) : Readable (place file 1) := by
  intro ds hin hd
  have hnot (c : Char) (hc : isDecimal c = false) : c ∉ ds := by
    intro hm
    rw [hd c hm] at hc
    cases hc
  have hsplit : (place file 1).toList =
      "File \"/workspace".toList ++ '/' :: (file.toList ++ '"' :: ", line 1".toList) := by
    have hend : beforeLine ++ Nat.toDigits 10 1 = '"' :: ", line 1".toList := by decide
    rw [toList_place, spellPlace, toList_inWorkspace, List.append_assoc, List.append_assoc, hend]
    rfl
  rw [hsplit] at hin
  rcases infix_or_infix (hnot '/' (by decide)) hin with h | h
  · exact h.length_le.trans (by decide)
  · rcases infix_or_infix (hnot '"' (by decide)) h with h | h
    · exact hr ds h hd
    · exact h.length_le.trans (by decide)

/-- Places in the files of a project are located just if no file name ends the path too early and
the container's path holds the name of the project. -/
theorem located_iff_contained (hf : '/' ∉ file.toList) (hr : Readable file) :
    (∀ text n, 1 ≤ n → Readable text → ReportsAt text file n → Located project text file n) ↔
      '"' ∉ file.toList ∧ contains (Sandbox.inWorkspace file) project = true := by
  constructor
  · intro h
    have hread := readable_place hr
    have hreport : ReportsAt (place file 1) file 1 := ⟨[], [], by simp, by simp⟩
    obtain ⟨m, hm, hin, hfile, -⟩ := (located_iff_found hread).mp (h _ 1 le_rfl hread hreport)
    have hq : '"' ∉ file.toList := by
      intro hmem
      obtain ⟨-, hclass⟩ := (drawn_of_findAll hm).group path_inside
      rw [← hfile] at hmem
      exact holds_unquoted.mp (hclass _ (Path.mem_of_mem_baseName hmem)) rfl
    rw [findAll_place 1 hq m hm] at hin
    refine ⟨hq, hin.resolve_right fun hroot => ?_⟩
    rw [startsWith, toList_inWorkspace] at hroot
    cases hroot
  · rintro ⟨hq, hp⟩ text n - hread hreport
    exact located_of_contained hf hq hp hread hreport

/-- A place in a project that has a directory of its own is not located. -/
theorem place_not_located : '/' ∉ "a.py".toList ∧ Readable "a.py" ∧
    ¬ (∀ text n, 1 ≤ n → Readable text → ReportsAt text "a.py" n →
      Located "proj" text "a.py" n) ∧
    targets (some .python) (place "a.py" 1) "proj" = .ok [] := by
  have hf : '/' ∉ "a.py".toList := by decide
  have hr : Readable "a.py" := readable_of_length (by decide)
  refine ⟨hf, hr, fun h => ?_, by decide +kernel⟩
  obtain ⟨-, hp⟩ := (located_iff_contained hf hr).mp h
  exact absurd hp (by decide)

end Targets

end Mender.Diagnostic
