import Mender.Proofs.PatternLines
import Mender.Proofs.Place

/-! The lines of classes that a message names. They are taken from left to right, none overlapping
another one. A frame of a stack trace names a line behind a parenthesis, which no name of a line can
reach over; so the line of every frame is among those taken already, and looking for frames adds
none. -/
namespace Mender.Diagnostic
open Text Pattern

def beforeDigits : List Char := ".java:".toList

/-- A line of a class that a text names: where, by which name and by which digits. -/
structure Mention where
  start : Nat
  name : List Char
  digits : List Char
  deriving DecidableEq

namespace Mention

def text (o : Mention) : List Char := o.name ++ (beforeDigits ++ o.digits)

def stop (o : Mention) : Nat := o.start + o.text.length

/-- A text names a line of a class at a position: by word characters, `.java:` and digits, of which
none is left out. -/
structure In (o : Mention) (cs : List Char) : Prop where
  name : o.name ≠ []
  word : ∀ c ∈ o.name, isWord c = true
  digits : o.digits ≠ []
  decimal : ∀ d ∈ o.digits, isDecimal d = true
  stands : ∃ rest, cs.drop o.start = o.text ++ rest ∧ ∀ d ∈ rest.head?, isDecimal d = false

def target (message : String) (o : Mention) : Target where
  file := String.ofList o.name ++ ".java"
  line := digitsValue o.digits
  desc := take 100 (drop o.start message)

def found (o : Mention) : Found where
  start := o.start
  text := String.ofList o.text
  groups := [(2, String.ofList o.digits), (1, String.ofList (o.name ++ ".java".toList))]

end Mention

/-- The lines of classes that a text names from a position on, taken from left to right: each begins
at the first place at or behind the end of the one before it. -/
inductive Scans (cs : List Char) : Nat → List Mention → Prop where
  | done {i : Nat} (none : ∀ o : Mention, i ≤ o.start → ¬ o.In cs) : Scans cs i []
  | next {i : Nat} {o : Mention} {os : List Mention} (behind : i ≤ o.start) (here : o.In cs)
    (first : ∀ o' : Mention, i ≤ o'.start → o'.start < o.start → ¬ o'.In cs)
    (rest : Scans cs o.stop os) : Scans cs i (o :: os)

section Mention
variable {cs : List Char} {o o' : Mention}

private theorem takeWhile_eq {p : Char → Bool} {w r : List Char} (hw : ∀ x ∈ w, p x = true)
    (hr : ∀ x ∈ r.head?, p x = false) : (w ++ r).takeWhile p = w := by
  rw [List.takeWhile_append_of_pos hw]
  cases r with
  | nil => exact List.append_nil w
  | cons x r => rw [List.takeWhile_cons, hr x rfl, if_neg Bool.false_ne_true, List.append_nil]

theorem Mention.text_append (o : Mention) (rest : List Char) :
    o.text ++ rest = o.name ++ (beforeDigits ++ (o.digits ++ rest)) := by
  rw [text, List.append_assoc, List.append_assoc]

theorem Mention.In.unique (h : o.In cs) (k : o'.In cs) (hs : o.start = o'.start) : o = o' := by
  obtain ⟨rest, htext, hrest⟩ := h.stands
  obtain ⟨rest', htext', hrest'⟩ := k.stands
  rw [hs, htext', text_append, text_append] at htext
  have hdot (r : List Char) : ∀ x ∈ (beforeDigits ++ r).head?, isWord x = false := by
    intro x hx
    obtain rfl := Option.some.inj hx
    decide
  have hname : o'.name = o.name := by
    rw [← takeWhile_eq k.word (hdot _), htext, takeWhile_eq h.word (hdot _)]
  rw [hname] at htext
  have hdigits : o'.digits = o.digits := by
    have htail := List.append_cancel_left (List.append_cancel_left htext)
    rw [← takeWhile_eq k.decimal hrest', htail, takeWhile_eq h.decimal hrest]
  cases o
  cases o'
  simp_all

theorem Mention.In.start_lt (h : o.In cs) : o.start < cs.length := by
  obtain ⟨rest, hrest, -⟩ := h.stands
  refine Nat.lt_of_not_le fun hle => h.name ?_
  rw [List.drop_eq_nil_of_le hle, text_append] at hrest
  exact (List.append_eq_nil_iff.mp hrest.symm).1

theorem Mention.In.digits_le (h : o.In cs) : o.digits.length ≤ cs.length := by
  obtain ⟨rest, hrest, -⟩ := h.stands
  have hlength := congrArg List.length hrest
  rw [text_append, List.length_drop, List.length_append, List.length_append, List.length_append]
    at hlength
  omega

private theorem Mention.In.paren_not_mem (h : o.In cs) : '(' ∉ o.text := by
  rw [Mention.text, List.mem_append, List.mem_append, not_or, not_or]
  refine ⟨fun hm => ?_, by decide, fun hm => ?_⟩
  · exact absurd (h.word _ hm) (by decide)
  · exact absurd (h.decimal _ hm) (by decide)

end Mention

section Scans
variable {cs : List Char} {o : Mention} {os os' : List Mention} {i : Nat}

theorem Scans.unique (h : Scans cs i os) (k : Scans cs i os') : os = os' := by
  induction h generalizing os' with
  | done none =>
    cases k with
    | done _ => rfl
    | next behind here _ _ => exact absurd here (none _ behind)
  | next behind here first rest ih =>
    cases k with
    | done none => exact absurd here (none _ behind)
    | next behind' here' first' rest' =>
      have hstart := Nat.le_antisymm (Nat.le_of_not_lt fun hlt => first _ behind' hlt here')
        (Nat.le_of_not_lt fun hlt => first' _ behind hlt here)
      obtain rfl := here.unique here' hstart
      rw [ih rest']

theorem Scans.pass (h : Scans cs (i + 1) os) (hnone : ∀ o : Mention, o.start = i → ¬ o.In cs) :
    Scans cs i os := by
  cases h with
  | done none =>
    refine .done fun o hi => ?_
    rcases Nat.eq_or_lt_of_le hi with he | hlt
    · exact hnone o he.symm
    · exact none o hlt
  | next behind here first rest =>
    refine .next (Nat.le_of_succ_le behind) here (fun o' hi hlt => ?_) rest
    rcases Nat.eq_or_lt_of_le hi with he | hgt
    · exact hnone o' he.symm
    · exact first o' hgt hlt

/-- A line that is named behind a parenthesis is taken: no line taken before reaches over the
parenthesis. -/
theorem Scans.mem_of_paren (h : Scans cs i os) {n : Nat} (hn : o.start = n + 1) (hi : i ≤ n + 1)
    (hparen : cs[n]? = some '(') (ho : o.In cs) : o ∈ os := by
  induction h with
  | done none => exact absurd ho (none o (hn ▸ hi))
  | @next i o' os behind here first rest ih =>
    rcases Nat.lt_trichotomy o.start o'.start with hlt | he | hgt
    · exact absurd ho (first o (hn ▸ hi) hlt)
    · exact ho.unique here he ▸ List.mem_cons_self
    · refine List.mem_cons_of_mem _ (ih (Nat.le_of_not_lt fun hlt => ?_))
      obtain ⟨r, hr, -⟩ := here.stands
      obtain ⟨j, rfl⟩ := Nat.exists_eq_add_of_le (show o'.start ≤ n by omega)
      rw [← List.getElem?_drop, hr, List.getElem?_append_left (by rw [Mention.stop] at hlt; omega)]
        at hparen
      exact here.paren_not_mem (List.mem_of_getElem? hparen)

end Scans

def classFile : Pattern :=
  .seq (plus (.union .none .word)) (spelled ".jav".toList (.char (.literal 'a')))

def classLine (q : Pattern) : Pattern := .seq (.group 1 classFile) (spelled [':'] q)

theorem classPlace_eq : classPlace = classLine (.group 2 (plus .digit)) := by decide +kernel

theorem framePlace_eq : framePlace = spelled "at ".toList
    (.seq (plus (.union (.union .none .word) (.literal '.')))
      (spelled ['('] (classLine (.seq (.group 2 (plus .digit)) (.char (.literal ')')))))) := by
  decide +kernel

theorem moves_classPlace : classPlace.Moves := moves_of_coversSome (by decide +kernel)

section Match
variable {s t : Cursor} {name rest : List Char}

private theorem goes_classFile (hs : s.rest = name ++ ".java".toList ++ rest) (hne : name ≠ [])
    (hw : ∀ c ∈ name, isWord c = true) :
    classFile.Goes s (s.past (name ++ ".java".toList) rest) := by
  have hname : (plus (.union .none .word)).Goes s (s.past name (".java".toList ++ rest)) :=
    goes_plus (hs.trans (List.append_assoc ..)) hne hw (not_holds_head (by decide) rest)
  have hfile : (spelled ".jav".toList (.char (.literal 'a'))).Goes
      (s.past name (".java".toList ++ rest)) _ :=
    goes_spelled (r := 'a' :: rest) rfl (goes_char rfl (by decide))
  have hgoes := hname.seq hfile
  rw [Cursor.past_past, Cursor.past_past] at hgoes
  exact hgoes

theorem matchAt_mention {o : Mention} {cs : List Char} (before : List Char) (ho : o.In cs)
    (hrest : ∀ d ∈ rest.head?, isDecimal d = false) :
    classPlace.matchAt false ⟨before, o.text ++ rest, o.start, []⟩ = some o.found := by
  have hgoes : ∃ t, classPlace.Goes ⟨before, o.text ++ rest, o.start, []⟩ t ∧
      t.pos = o.start + o.text.length ∧ t.groups = o.found.groups := by
    rw [classPlace_eq]
    have hfile : o.text ++ rest = o.name ++ ".java".toList ++ (':' :: (o.digits ++ rest)) := by
      rw [Mention.text_append, List.append_assoc]
      rfl
    have hdigits (s : Cursor) (hs : s.rest = o.digits ++ rest) :=
      (goes_plus (c := .digit) hs ho.digits ho.decimal hrest).group hs 2
    refine ⟨_, ((goes_classFile hfile ho.name ho.word).group hfile 1).seq
      (goes_spelled (r := o.digits ++ rest) rfl (hdigits _ rfl)), ?_, rfl⟩
    have hcolon : ".java".toList.length + [':'].length = beforeDigits.length := by decide
    simp only [Cursor.past, Cursor.noting, Mention.text, List.length_append]
    omega
  obtain ⟨t, hgoes, hpos, hgroups⟩ := hgoes
  rw [hgoes.matchAt, hgroups]
  simp only [hpos, Nat.add_sub_cancel_left, List.take_left]
  rfl

theorem matches_group {p : Pattern} {i : Nat} (h : (group i p).Matches s t) :
    ∃ u w, p.Matches s u ∧ s.Passes w u ∧ s.Passes w t ∧
      t.groups = (i, String.ofList w) :: u.groups := by
  obtain ⟨u, hu, rfl⟩ := h
  obtain ⟨w, hw⟩ := hu.passes
  have htake : s.rest.take (u.pos - s.pos) = w := by
    rw [hw.pos, Nat.add_sub_cancel_left, hw.rest, List.take_left]
  exact ⟨u, w, hu, hw, ⟨hw.rest, hw.before, hw.pos⟩, by rw [htake]⟩

theorem matches_classLine {q : Pattern} (h : (classLine q).Matches s t) : ∃ name u,
    name ≠ [] ∧ (∀ c ∈ name, isWord c = true) ∧ s.Passes (name ++ beforeDigits) u ∧
      u.groups = (1, String.ofList (name ++ ".java".toList)) :: s.groups ∧ q.Matches u t := by
  obtain ⟨v, hfile, hrest⟩ := h
  obtain ⟨v', w, hv', hw, hv, hgroups⟩ := matches_group hfile
  obtain ⟨u, hu, hq⟩ := matches_spelled hrest
  obtain ⟨x, hx, hend⟩ := hv'
  obtain ⟨name, hname, hword, hne⟩ := matches_plus hx
  obtain ⟨y, hy, hlast⟩ := matches_spelled hend
  obtain ⟨c, hc, hread⟩ := matches_char.mp hlast
  obtain rfl : c = 'a' := by simpa [CharClass.holds] using hc
  have hall := (hname.trans hy).trans hread
  have hsame : w = name ++ ".java".toList := by
    refine List.append_cancel_right (hw.rest.symm.trans (hall.rest.trans ?_))
    simp
  subst hsame
  refine ⟨name, u, hne, hword, ?_, ?_, hq⟩
  · have hpass := hv.trans hu.toPasses
    rwa [List.append_assoc] at hpass
  · rw [hu.groups, hgroups, hall.groups]

theorem matches_digits (h : (group 2 (plus .digit)).Matches s t) : ∃ ds, ds ≠ [] ∧
    (∀ d ∈ ds, isDecimal d = true) ∧ s.Passes ds t ∧
      t.groups = (2, String.ofList ds) :: s.groups := by
  obtain ⟨u, w, hu, hw, ht, hgroups⟩ := matches_group h
  obtain ⟨ds, hds, hdecimal, hne⟩ := matches_plus hu
  obtain rfl : w = ds := List.append_cancel_right (hw.rest.symm.trans hds.rest)
  exact ⟨w, hne, hdecimal, ht, by rw [hgroups, hds.groups]⟩

private theorem exists_mention {before cs : List Char}
    (h : classPlace.Matches ⟨before, cs, before.length, []⟩ t) :
    ∃ o : Mention, o.start = before.length ∧ o.In (before.reverse ++ cs) := by
  rw [classPlace_eq] at h
  obtain ⟨name, u, hname, hword, hu, -, hq⟩ := matches_classLine h
  obtain ⟨ds, hne, hds, ht, -⟩ := matches_digits hq
  have hcs : cs = name ++ beforeDigits ++ (ds ++ t.rest) := hu.rest.trans (by rw [ht.rest])
  refine ⟨⟨before.length, name, ds ++ t.rest.takeWhile isDecimal⟩, rfl, hname, hword,
    List.append_ne_nil_of_left_ne_nil hne _, fun d hd => ?_,
    t.rest.dropWhile isDecimal, ?_, fun d hd => ?_⟩
  · rcases List.mem_append.mp hd with hd | hd
    · exact hds d hd
    · exact List.all_eq_true.mp List.all_takeWhile d hd
  · rw [List.drop_left' (List.length_reverse ..), Mention.text_append, hcs, List.append_assoc,
      List.append_assoc, List.takeWhile_append_dropWhile]
  · simpa [Option.mem_def.mp hd] using List.head?_dropWhile_not isDecimal t.rest

end Match

theorem foundFrom_scans (before cs : List Char) : ∃ os,
    Scans (before.reverse ++ cs) before.length os ∧
      classPlace.foundFrom before before.length cs = os.map Mention.found := by
  induction hn : cs.length using Nat.strongRecOn generalizing before cs with
  | ind n ih =>
  subst hn
  by_cases hhere : ∃ o : Mention, o.start = before.length ∧ o.In (before.reverse ++ cs)
  · obtain ⟨o, hstart, ho⟩ := hhere
    obtain ⟨rest, hdrop, hrest⟩ := ho.stands
    rw [hstart, List.drop_left' (List.length_reverse ..)] at hdrop
    subst hdrop
    have htext : o.found.text.toList = o.text := String.toList_ofList
    have hshort : rest.length < (o.text ++ rest).length := by
      have hname := List.length_pos_of_ne_nil ho.name
      rw [List.length_append, Mention.text, List.length_append]
      omega
    obtain ⟨os, hos, hfound⟩ := ih _ hshort (o.text.reverse ++ before) rest rfl
    have hlength : (o.text.reverse ++ before).length = before.length + o.text.length := by
      rw [List.length_append, List.length_reverse, Nat.add_comm]
    rw [List.reverse_append, List.reverse_reverse, List.append_assoc, hlength] at hos
    have hmatch := matchAt_mention before ho hrest
    rw [hstart] at hmatch
    refine ⟨o :: os, .next (Nat.le_of_eq hstart.symm) ho (fun o' hi hlt => ?_) ?_, ?_⟩
    · omega
    · rw [Mention.stop, hstart]
      exact hos
    · rw [foundFrom_of_some moves_classPlace hmatch (r := rest) (by rw [htext]), htext, ← hlength,
        hfound, List.map_cons]
  · cases cs with
    | nil =>
      refine ⟨[], .done fun o hi ho => ?_, foundFrom_nil moves_classPlace⟩
      have hlt := ho.start_lt
      rw [List.append_nil, List.length_reverse] at hlt
      exact Nat.not_le.mpr hlt hi
    | cons c cs =>
      have hnone : classPlace.matchAt false ⟨before, c :: cs, before.length, []⟩ = none :=
        matchAt_eq_none.mpr fun t ht => hhere (exists_mention ht)
      obtain ⟨os, hos, hfound⟩ := ih cs.length (Nat.lt_succ_self _) (c :: before) cs rfl
      rw [List.reverse_cons, List.append_assoc] at hos
      refine ⟨os, hos.pass fun o hi ho => hhere ⟨o, hi, ho⟩, ?_⟩
      rw [foundFrom_of_none hnone]
      exact hfound

theorem mention_of_frame {message : String} {m : Found} (h : m ∈ framePlace.findAll message) :
    ∃ (o : Mention) (n : Nat), o.start = n + 1 ∧ message.toList[n]? = some '(' ∧
      o.In message.toList ∧ m.groups = o.found.groups := by
  obtain ⟨piece, hp, he⟩ := List.mem_filterMap.mp h
  rcases mem_pieces hp with ⟨c, -, rfl⟩ | ⟨m', u, nonempty, rfl, hat, hu, before, hbefore⟩
  · cases he
  obtain rfl : m' = m := Option.some.inj he
  obtain ⟨t, -, ht, -, -, hgroups⟩ := matchAt_eq_some hat
  rw [framePlace_eq] at ht
  obtain ⟨a, ha, ht⟩ := matches_spelled ht
  obtain ⟨b, hb, ht⟩ := ht
  obtain ⟨method, hmethod, -, -⟩ := matches_plus hb
  obtain ⟨c, hc, ht⟩ := matches_spelled ht
  obtain ⟨name, d, hname, hword, hd, hnamed, ht⟩ := matches_classLine ht
  obtain ⟨e, he, ht⟩ := ht
  obtain ⟨digits, hdigits, hdecimal, he, hnumber⟩ := matches_digits he
  obtain ⟨x, hx, ht⟩ := matches_char.mp ht
  obtain rfl : x = ')' := by simpa [CharClass.holds] using hx
  have hall : message.toList = (before ++ ("at ".toList ++ method)) ++ '(' ::
      (name ++ (beforeDigits ++ digits) ++ ')' :: t.rest) := by
    rw [← hbefore, ha.rest, hmethod.rest, hc.rest, hd.rest, he.rest, ht.rest]
    simp
  refine ⟨⟨(before ++ ("at ".toList ++ method)).length + 1, name, digits⟩, _, rfl, ?_,
    ⟨hname, hword, hdigits, hdecimal, ')' :: t.rest, ?_, ?_⟩, ?_⟩
  · rw [hall, List.getElem?_append_right (Nat.le_refl _), Nat.sub_self]
    rfl
  · rw [hall, List.drop_append]
    simp [Mention.text]
  · intro x hx
    obtain rfl := Option.some.inj hx
    decide
  · rw [hgroups, ht.groups, hnumber, hnamed, hc.groups, hmethod.groups, ha.groups, hu]
    rfl

theorem addFrames_eq_self {known : List Target} {ms : List Found}
    (h : ∀ m ∈ ms, ∃ n, readNumber (m.group 2) = .ok n ∧
      ∃ t ∈ known, t.file = m.group 1 ∧ t.line = n) : addFrames known ms = .ok known := by
  induction ms with
  | nil => rfl
  | cons m ms ih =>
    obtain ⟨⟨n, hn, t, ht, hfile, hline⟩, hms⟩ := List.forall_mem_cons.mp h
    have hknown : (known.any fun t => t.file = m.group 1 && t.line = n) = true := by
      refine List.any_eq_true.mpr ⟨t, ht, ?_⟩
      simp [hfile, hline]
    rw [addFrames, hn]
    change addFrames (if _ then known else _) ms = _
    rw [if_pos hknown, ih hms]

section Targets
variable {message : String} {os : List Mention} {o : Mention}

theorem Scans.mentions {cs : List Char} {i : Nat} (h : Scans cs i os) : ∀ o ∈ os, o.In cs := by
  induction h with
  | done _ => exact List.forall_mem_nil _
  | next _ here _ _ ih => exact List.forall_mem_cons.mpr ⟨here, ih⟩

theorem readNumber_ofList (ds : List Char) : readNumber (String.ofList ds) =
    if ds.length ≤ 4300 then .ok (digitsValue ds : Int) else .error (.tooManyDigits ds.length) := by
  rw [readNumber, length, String.toList_ofList]

theorem Mention.group_file (o : Mention) (message : String) :
    o.found.group 1 = (o.target message).file :=
  String.ofList_append.trans (by rw [String.ofList_toList]; rfl)

theorem Mention.group_line (h : o.digits.length ≤ 4300) (message : String) :
    readNumber (o.found.group 2) = .ok (o.target message).line :=
  (readNumber_ofList _).trans (if_pos h)

theorem target_found (h : o.digits.length ≤ 4300) :
    Diagnostic.target message o.found = .ok (o.target message) := by
  rw [Diagnostic.target, Mention.group_line h message, o.group_file message]
  rfl

private theorem target_refused (h : 4300 < o.digits.length) :
    Diagnostic.target message o.found = .error (.tooManyDigits o.digits.length) := by
  have hnumber : readNumber (o.found.group 2) = .error (.tooManyDigits o.digits.length) :=
    (readNumber_ofList _).trans (if_neg (Nat.not_le.mpr h))
  rw [Diagnostic.target, hnumber]
  rfl

theorem findAll_classPlace (h : Scans message.toList 0 os) :
    classPlace.findAll message = os.map Mention.found := by
  obtain ⟨os', hos, hfound⟩ := foundFrom_scans [] message.toList
  rw [h.unique hos]
  exact hfound

theorem mapM_target (h : Scans message.toList 0 os) (hshort : ∀ o ∈ os, o.digits.length ≤ 4300) :
    (classPlace.findAll message).mapM (Diagnostic.target message) =
      .ok (os.map (Mention.target message)) := by
  rw [findAll_classPlace h, List.mapM_map]
  exact mapM_eq_ok_map fun o ho => target_found (hshort o ho)

theorem addFrames_mentions (h : Scans message.toList 0 os)
    (hshort : ∀ o ∈ os, o.digits.length ≤ 4300) :
    addFrames (os.map (Mention.target message)) (framePlace.findAll message) =
      .ok (os.map (Mention.target message)) := by
  refine addFrames_eq_self fun m hm => ?_
  obtain ⟨o, n, hstart, hparen, ho, hgroups⟩ := mention_of_frame hm
  have hmem := h.mem_of_paren hstart (Nat.zero_le _) hparen ho
  have hgroup (i : Nat) : m.group i = o.found.group i := by
    rw [Found.group, Found.group?, hgroups]
    rfl
  refine ⟨(o.target message).line, ?_, _, List.mem_map_of_mem hmem, ?_, rfl⟩
  · rw [hgroup, Mention.group_line (hshort o hmem)]
  · rw [hgroup, o.group_file]

private theorem targets_mentions (h : Scans message.toList 0 os)
    (hshort : ∀ o ∈ os, o.digits.length ≤ 4300) (project : String) :
    targets (some .java) message project = .ok (os.map (Mention.target message)) := by
  rw [targets, mapM_target h hshort]
  exact addFrames_mentions h hshort

theorem targets_refused (h : Scans message.toList 0 os)
    (hlong : os.find? (fun o => 4300 < o.digits.length) = some o) (project : String) :
    targets (some .java) message project = .error (.tooManyDigits o.digits.length) := by
  rw [targets, findAll_classPlace h, List.mapM_map, mapM_eq_error (fun o' ho' => ?_) hlong
    (target_refused (by simpa using List.find?_some hlong))]
  · rfl
  · exact ⟨_, target_found (by simpa using ho')⟩

/-- The lines that a message names are reported once each and in their order, with what the message
says from there on; the frames of a stack trace add nothing to them. Only a number with too many
digits is refused, the first one of them. -/
theorem class_lines_reported_once (message project : String) : ∃ os,
    Scans message.toList 0 os ∧ (∀ os', Scans message.toList 0 os' → os' = os) ∧
    ((∀ o ∈ os, o.digits.length ≤ 4300) →
      (classPlace.findAll message).mapM (Diagnostic.target message) =
        .ok (os.map (Mention.target message)) ∧
      addFrames (os.map (Mention.target message)) (framePlace.findAll message) =
        .ok (os.map (Mention.target message)) ∧
      targets (some .java) message project = .ok (os.map (Mention.target message))) ∧
    ∀ o, os.find? (fun o => 4300 < o.digits.length) = some o →
      targets (some .java) message project = .error (.tooManyDigits o.digits.length) := by
  obtain ⟨os, hos, -⟩ := foundFrom_scans [] message.toList
  refine ⟨os, hos, fun os' hos' => hos'.unique hos, fun hshort => ?_, fun o hlong => ?_⟩
  · exact ⟨mapM_target hos hshort, addFrames_mentions hos hshort,
      targets_mentions hos hshort project⟩
  · exact targets_refused hos hlong project

/-- A frame and the line that it names are one place. -/
theorem frame_reported_once : ∃ os,
    Scans "A.java:3: error\n\tat b.C.d(C.java:10)".toList 0 os ∧
      targets (some .java) "A.java:3: error\n\tat b.C.d(C.java:10)" "p" =
        .ok (os.map (Mention.target "A.java:3: error\n\tat b.C.d(C.java:10)")) ∧
      targets (some .java) "A.java:3: error\n\tat b.C.d(C.java:10)" "p" =
        .ok [⟨"A.java", 3, "A.java:3: error\n\tat b.C.d(C.java:10)"⟩,
          ⟨"C.java", 10, "C.java:10)"⟩] := by
  obtain ⟨os, hos, -, hok, -⟩ :=
    class_lines_reported_once "A.java:3: error\n\tat b.C.d(C.java:10)" "p"
  have hshort : ∀ o ∈ os, o.digits.length ≤ 4300 := fun o ho =>
    Nat.le_trans (hos.mentions o ho).digits_le (by decide)
  exact ⟨os, hos, (hok hshort).2.2, by decide +kernel⟩

def crowded : Mention := ⟨0, ['A'], List.replicate 4300 '0' ++ ['1']⟩

/-- A message can name a line and no place be reported for it. -/
theorem crowded_line_unreported : Scans crowded.text 0 [crowded] ∧
    targets (some .java) (String.ofList crowded.text) "p" = .error (.tooManyDigits 4301) := by
  have hlength : crowded.digits.length = 4301 := by
    rw [crowded, List.length_append, List.length_replicate]
    rfl
  have hin : crowded.In crowded.text := by
    refine ⟨List.cons_ne_nil _ _, fun c hc => ?_, ?_, fun d hd => ?_, [], ?_, ?_⟩
    · rw [List.mem_singleton.mp hc]
      decide
    · exact List.append_ne_nil_of_right_ne_nil _ (List.cons_ne_nil _ _)
    · rcases List.mem_append.mp hd with hd | hd
      · rw [List.eq_of_mem_replicate hd]
        decide
      · rw [List.mem_singleton.mp hd]
        decide
    · exact (List.append_nil _).symm
    · exact fun d hd => absurd hd (by simp)
  have hscans : Scans crowded.text 0 [crowded] := by
    refine .next (Nat.zero_le _) hin (fun o _ hlt => absurd hlt (Nat.not_lt_zero _))
      (.done fun o hle ho => ?_)
    have hlt := ho.start_lt
    rw [Mention.stop] at hle
    omega
  refine ⟨hscans, ?_⟩
  rw [← hlength]
  refine targets_refused (by rwa [String.toList_ofList]) ?_ "p"
  rw [List.find?_cons_of_pos]
  rw [hlength]
  rfl

end Targets

end Mender.Diagnostic
