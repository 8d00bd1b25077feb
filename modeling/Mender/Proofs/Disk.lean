import Mender.Proofs.Text
import Mender.Project.Glob

/-! Paths, the places they lead to, and what writing changes. A file is put where the path of its
directory leads, under its own name; everywhere else the disk stays as it is. -/
namespace Mender
open Text

section Entries
variable {α β : Type} [DecidableEq α] [BEq α] [LawfulBEq α]

private theorem lookup_cons_eq (r q : α) (v : β) (entries : List (α × β)) :
    ((r, v) :: entries).lookup q = if q = r then some v else entries.lookup q := by
  rw [List.lookup_cons]
  by_cases h : q = r
  · simp [h]
  · rw [beq_eq_false_iff_ne.mpr h, if_neg h]

theorem lookup_overwrite (entries : List (α × β)) (p q : α) (v : β) :
    (if entries.any (·.1 == p) then entries.map fun e => if e.1 == p then (p, v) else e
      else entries ++ [(p, v)]).lookup q = if q = p then some v else entries.lookup q := by
  have hreplaced (es : List (α × β)) (h : p ∈ es.map (·.1) ∨ q ≠ p) :
      (es.map fun e => if e.1 == p then (p, v) else e).lookup q =
        if q = p then some v else es.lookup q := by
    induction es with
    | nil => simp_all
    | cons e es ih =>
      obtain ⟨r, t⟩ := e
      by_cases hr : r = p
      · subst hr
        rw [List.map_cons, if_pos (by simp), lookup_cons_eq, lookup_cons_eq]
        split
        · rfl
        · rename_i hq
          rw [ih (.inr hq), if_neg hq]
      · rw [List.map_cons, if_neg (by simpa using hr), lookup_cons_eq, lookup_cons_eq]
        have hin : p ∈ es.map (·.1) ∨ q ≠ p := by
          rcases h with h | h
          · exact .inl ((List.mem_cons.mp h).resolve_left (Ne.symm hr))
          · exact .inr h
        rw [ih hin]
        split
        · rename_i hq
          rw [if_neg (hq ▸ hr)]
        · rfl
  split
  · rename_i hany
    obtain ⟨e, he, hp⟩ := List.any_eq_true.mp hany
    exact hreplaced entries (.inl (List.mem_map.mpr ⟨e, he, beq_iff_eq.mp hp⟩))
  · rename_i hany
    rw [List.lookup_append, lookup_cons_eq, List.lookup_nil]
    by_cases hq : q = p
    · subst hq
      have hnone : entries.lookup q = none := by
        rw [List.lookup_eq_none_iff]
        intro e he
        rw [bne_iff_ne]
        intro hp
        exact hany (List.any_eq_true.mpr ⟨e, he, beq_iff_eq.mpr hp.symm⟩)
      rw [hnone, if_pos rfl, Option.none_or]
    · rw [if_neg hq, if_neg hq, Option.or_none]

end Entries

namespace Path
variable {name : String}

def lead (dir : String) : String := if dir = "" || endsWith dir "/" then dir else dir ++ "/"

private theorem join_of_start (h : startsWith name "/" = false) (dir : String) :
    join dir name = lead dir ++ name := by
  rw [join, h, lead, if_neg (by simp)]
  split <;> rfl

theorem join_eq (h : '/' ∉ name.toList) (dir : String) : join dir name = lead dir ++ name := by
  refine join_of_start ?_ dir
  rw [startsWith, Bool.eq_false_iff, ne_eq, List.isPrefixOf_iff_prefix]
  exact fun hp => h (hp.subset (by simp))

theorem lead_cases {dir : String} (h : dir ≠ "") : ∃ front, (lead dir).toList = front ++ ['/'] ∧
    (dir.toList = front ∨ dir.toList = front ++ ['/']) := by
  by_cases he : endsWith dir "/" = true
  · obtain ⟨front, hf⟩ := List.isSuffixOf_iff_suffix.mp he
    have hl : lead dir = dir := if_pos (by simp [he])
    exact ⟨front, by rw [hl]; exact hf.symm, .inr hf.symm⟩
  · have hl : lead dir = dir ++ "/" := if_neg (by simp [he, h])
    exact ⟨dir.toList, by simp [hl], .inl rfl⟩

theorem lead_empty : lead "" = "" := by decide

theorem join_join {dir layer name : String} (hne : layer ≠ "") (hlayer : '/' ∉ layer.toList)
    (hname : '/' ∉ name.toList) :
    join (join dir layer) name = join dir (layer ++ "/" ++ name) := by
  have hchars : layer.toList ≠ [] := by simpa using hne
  have hlead : lead (lead dir ++ layer) = lead dir ++ layer ++ "/" := by
    obtain ⟨front, last, hlast⟩ := (List.eq_nil_or_concat layer.toList).resolve_left hchars
    have hends : endsWith (lead dir ++ layer) "/" = false := by
      rw [endsWith, Bool.eq_false_iff, ne_eq, List.isSuffixOf_iff_suffix, String.toList_append,
        hlast, List.concat_eq_append, ← List.append_assoc]
      intro hs
      obtain ⟨more, hmore⟩ := hs
      obtain rfl : '/' = last := by simpa using congrArg List.getLast? hmore
      exact hlayer (hlast ▸ by simp)
    exact if_neg (by simp [hends, hne])
  have hstart : startsWith (layer ++ "/" ++ name) "/" = false := by
    obtain ⟨first, rest, hfirst⟩ := List.exists_cons_of_ne_nil hchars
    rw [startsWith, Bool.eq_false_iff, ne_eq, List.isPrefixOf_iff_prefix, String.toList_append,
      String.toList_append, hfirst]
    intro hp
    obtain rfl : '/' = first := by simpa using hp
    exact hlayer (hfirst ▸ by simp)
  rw [join_eq hname, join_eq hlayer, hlead, join_of_start hstart]
  simp only [String.append_assoc]

private theorem reverse_join (h : '/' ∉ name.toList) (dir : String) :
    ∃ back, (join dir name).toList.reverse = name.toList.reverse ++ back ∧
      (lead dir).toList.reverse = back ∧ ∀ c ∈ back.head?, c = '/' := by
  refine ⟨(lead dir).toList.reverse, by simp [join_eq h], rfl, ?_⟩
  by_cases hd : dir = ""
  · simp [hd, lead_empty]
  · obtain ⟨front, hf, -⟩ := lead_cases hd
    simp [hf]

private theorem span_join {xs ys : List Char} (hx : '/' ∉ xs) (hy : ∀ c ∈ ys.head?, c = '/') :
    (xs ++ ys).takeWhile (· != '/') = xs ∧ (xs ++ ys).dropWhile (· != '/') = ys := by
  have hall : ∀ c ∈ xs, (c != '/') = true := by
    intro c hc
    rw [bne_iff_ne]
    rintro rfl
    exact hx hc
  rw [List.takeWhile_append_of_pos hall, List.dropWhile_append_of_pos hall]
  cases ys with
  | nil => simp
  | cons c ys =>
    have hc : c = '/' := hy c rfl
    simp [hc]

theorem baseName_join (h : '/' ∉ name.toList) (dir : String) : baseName (join dir name) = name := by
  obtain ⟨back, hb, -, hs⟩ := reverse_join h dir
  rw [baseName, hb, (span_join (by simpa using h) hs).1, List.reverse_reverse, String.ofList_toList]

theorem baseName_unslashed (path : String) : '/' ∉ (baseName path).toList := by
  rw [baseName, String.toList_ofList, List.mem_reverse]
  intro h
  simpa using List.all_eq_true.mp List.all_takeWhile '/' h

theorem mem_of_mem_baseName {path : String} {c : Char}
    (h : c ∈ (baseName path).toList) : c ∈ path.toList := by
  rw [baseName, String.toList_ofList, List.mem_reverse] at h
  exact List.mem_reverse.mp ((List.takeWhile_prefix _).subset h)

theorem mem_dirName_join {name dir : String} {c : Char} (h : '/' ∉ name.toList)
    (hc : c ∈ (dirName (join dir name)).toList) : c ∈ dir.toList ∨ c = '/' := by
  obtain ⟨back, hb, hl, hs⟩ := reverse_join h dir
  have hmem : c ∈ (lead dir).toList := by
    rw [dirName, hb, (span_join (by simpa using h) hs).2, ← hl, List.reverse_reverse] at hc
    simp only [String.toList_ofList] at hc
    split at hc
    · exact hc
    · rw [dropEndWhile, List.mem_reverse] at hc
      exact List.mem_reverse.mp ((List.dropWhile_suffix _).subset hc)
  by_cases hd : dir = ""
  · simp [hd, lead_empty] at hmem
  · obtain ⟨front, hf, hor⟩ := lead_cases hd
    rw [hf, List.mem_append, List.mem_singleton] at hmem
    rcases hmem with hm | hm
    · rcases hor with hor | hor
      · exact .inl (hor ▸ hm)
      · exact .inl (hor ▸ List.mem_append_left _ hm)
    · exact .inr hm

end Path

namespace Disk

/-- A name that a file can have: no part of a path that leads elsewhere. -/
structure IsProper (name : String) : Prop where
  nonempty : name ≠ ""
  not_here : name ≠ "."
  not_up : name ≠ ".."
  unslashed : '/' ∉ name.toList

def Named (d : Disk) : Prop := ∀ p ∈ d.files.map (·.1) ++ d.dirs, ∀ name ∈ p, '/' ∉ name.toList

instance (d : Disk) : Decidable d.Named :=
  inferInstanceAs (Decidable (∀ p ∈ d.files.map (·.1) ++ d.dirs, ∀ name ∈ p, '/' ∉ name.toList))

section Walk
variable {d e : Disk}

theorem walk_cons (seen : List String) (name : String) (names : List String) :
    d.walk seen (name :: names) =
      if name = "" then d.walk seen names
      else if name = "." then if d.isDirAt seen.reverse then d.walk seen names else none
      else if name = ".." then
        if seen ≠ [] ∧ d.isDirAt seen.reverse then d.walk seen.tail names else none
      else d.walk (name :: seen) names := by
  cases seen <;> simp [walk]

theorem walk_congr (h : e.dirs = d.dirs) (seen names : List String) :
    e.walk seen names = d.walk seen names := by
  have hdir (p : List String) : e.isDirAt p = d.isDirAt p := by rw [isDirAt, isDirAt, h]
  induction names generalizing seen with
  | nil => simp [walk]
  | cons name names ih => simp only [walk_cons, ih, hdir]

theorem walk_append (seen names more : List String) :
    d.walk seen (names ++ more) = (d.walk seen names).bind fun p => d.walk p.reverse more := by
  induction names generalizing seen with
  | nil => simp [walk]
  | cons first names ih =>
    simp only [List.cons_append, walk_cons, ih]
    split_ifs <;> rfl

theorem walk_proper {name : String} (h : IsProper name) (p : List String) :
    d.walk p.reverse [name] = some (p ++ [name]) := by
  rw [walk_cons, if_neg h.nonempty, if_neg h.not_here, if_neg h.not_up]
  simp [walk]

theorem walk_subset {seen names p : List String} (h : d.walk seen names = some p) :
    ∀ name ∈ p, name ∈ seen ∨ name ∈ names := by
  induction names generalizing seen with
  | nil =>
    simp only [walk, Option.some.injEq] at h
    simp [← h]
  | cons first names ih =>
    have later {seen' : List String} (hs : ∀ n ∈ seen', n ∈ seen ∨ n = first)
        (hw : d.walk seen' names = some p) : ∀ name ∈ p, name ∈ seen ∨ name ∈ first :: names := by
      intro name hn
      rcases ih hw name hn with hm | hm
      · rcases hs name hm with hm | rfl
        · exact .inl hm
        · exact .inr List.mem_cons_self
      · exact .inr (List.mem_cons_of_mem _ hm)
    have stay : d.walk seen names = some p → _ := later fun _ => .inl
    rw [walk_cons] at h
    split at h
    · exact stay h
    split at h
    · split at h
      · exact stay h
      · cases h
    split at h
    · split at h
      · exact later (fun _ hn => .inl (List.mem_of_mem_tail hn)) h
      · cases h
    · exact later (fun _ hn => (List.mem_cons.mp hn).symm) h

theorem locate_congr (h : e.dirs = d.dirs) (path : String) : e.locate? path = d.locate? path := by
  rw [locate?, locate?, walk_congr h]

theorem locate_join_of_unslashed {dir name : String} (hdir : dir ≠ "") (h : '/' ∉ name.toList) :
    d.locate? (Path.join dir name) = (d.locate? dir).bind fun q => d.walk q.reverse [name] := by
  obtain ⟨front, hf, hor⟩ := Path.lead_cases hdir
  have hjoin : (Path.join dir name).toList = front ++ '/' :: name.toList := by
    simp [Path.join_eq h, hf]
  have hsplit : splitOn '/' (Path.join dir name) =
      (splitChars '/' front).map String.ofList ++ [name] := by
    rw [splitOn, hjoin, splitChars_append, splitChars_of_not_mem h]
    simp
  have hwalk : d.walk [] (splitOn '/' dir) =
      d.walk [] ((splitChars '/' front).map String.ofList) := by
    rcases hor with hor | hor
    · rw [splitOn, hor]
    · rw [splitOn, hor, splitChars_append, List.map_append, walk_append]
      simp [splitChars, walk]
  have hne : Path.join dir name ≠ "" := by
    intro he
    rw [he] at hjoin
    simp at hjoin
  have hroot : startsWith (Path.join dir name) "/" = startsWith dir "/" := by
    rw [startsWith, startsWith, hjoin]
    cases front with
    | nil =>
      have : dir.toList = ['/'] := hor.resolve_left fun he => hdir (by simpa using he)
      simp [this]
    | cons c front =>
      rcases hor with hor | hor <;> simp [hor, List.isPrefixOf]
  rw [locate?, locate?, hroot, hsplit, walk_append, hwalk]
  simp only [hne, hdir, decide_false, Bool.false_or]
  split <;> rfl

theorem locate_join {dir name : String} (hdir : dir ≠ "") (h : IsProper name) :
    d.locate? (Path.join dir name) = (d.locate? dir).map (· ++ [name]) := by
  rw [locate_join_of_unslashed hdir h.unslashed]
  simp only [walk_proper h]
  cases d.locate? dir <;> rfl

theorem locate_named {path : String} {p : List String} (h : d.locate? path = some p) :
    ∀ name ∈ p, '/' ∉ name.toList := by
  rw [locate?] at h
  split at h
  · cases h
  · intro name hn
    rcases walk_subset h name hn with hm | hm
    · cases hm
    · obtain ⟨cs, hcs, rfl⟩ := List.mem_map.mp hm
      rw [String.toList_ofList]
      exact not_mem_of_mem_splitChars hcs

end Walk

section Write
variable {d e : Disk} {path text : String}

theorem lookup_putFile (files : List (List String × FileContent)) (p q : List String)
    (c : FileContent) :
    (putFile files p c).lookup q = if q = p then some c else files.lookup q :=
  lookup_overwrite files p q c

/-- What writing a file does: the file stands at the place of its path, in a directory, and nothing
else changes. -/
theorem write_eq_ok (h : d.write path text = .ok e) : ∃ p, d.locate? path = some p ∧
    d.isDirAt p.dropLast = true ∧ e = { d with files := putFile d.files p ⟨text, true⟩ } := by
  unfold write at h
  split at h
  · cases h
  · rename_i p hp
    split at h
    · cases h
    split at h
    · rename_i hdir
      exact ⟨p, hp, hdir, (Except.ok.inj h).symm⟩
    split at h <;> cases h

theorem file_write (h : d.write path text = .ok e) : e.file? path = some ⟨text, true⟩ := by
  have hslash : endsWith path "/" = false := by
    unfold write at h
    split at h
    · cases h
    split at h
    · cases h
    · rename_i hn
      exact (Bool.or_eq_false_iff.mp (Bool.not_eq_true _ ▸ hn)).2
  obtain ⟨p, hp, -, he⟩ := write_eq_ok h
  have hl : e.locate? path = some p := (locate_congr (he ▸ rfl) path).trans hp
  rw [file?, if_neg (by simp [hslash]), hl, he]
  exact (lookup_putFile ..).trans (if_pos rfl)

theorem write_dirs (h : d.write path text = .ok e) : e.dirs = d.dirs := by
  obtain ⟨p, -, -, rfl⟩ := write_eq_ok h
  rfl

theorem file_write_other {other : String} (h : d.write path text = .ok e)
    (hne : d.locate? path ≠ d.locate? other) : e.file? other = d.file? other := by
  have hlocate := locate_congr (write_dirs h) other
  obtain ⟨p, hp, -, rfl⟩ := write_eq_ok h
  rw [file?, file?, hlocate]
  split
  · rfl
  · cases ho : d.locate? other with
    | none => rfl
    | some q =>
      have hq : q ≠ p := by
        rintro rfl
        exact hne (hp.trans ho.symm)
      exact (lookup_putFile ..).trans (if_neg hq)

private theorem makeFrom_files {typed seen names : List String}
    (h : makeFrom path d typed seen names = .ok e) : e.files = d.files := by
  induction names generalizing d typed seen with
  | nil =>
    unfold makeFrom at h
    rw [Except.ok.inj h]
  | cons name names ih =>
    unfold makeFrom at h
    dsimp only at h
    split at h
    · exact ih h
    split at h
    · split at h
      · cases h
      · exact ih h
    split at h
    · split at h <;> cases h
    · exact (ih h).trans rfl

theorem makeDirs_files (h : d.makeDirs path = .ok e) : e.files = d.files := by
  unfold makeDirs at h
  split at h
  · cases h
  · exact makeFrom_files h

/-- Texts are written to files, one after the other. -/
inductive Writes : Disk → List String → Disk → Prop
  | nil (d : Disk) : Writes d [] d
  | cons {d e f : Disk} {path text : String} {paths : List String}
    (first : d.write path text = .ok e) (rest : Writes e paths f) : Writes d (path :: paths) f

theorem Writes.of_singleton (h : Writes d [path] e) : ∃ text, d.write path text = .ok e := by
  cases h with
  | cons first rest =>
    cases rest
    exact ⟨_, first⟩

theorem write_join {name dir : String} (hdir : dir ≠ "") (hname : IsProper name)
    (h : d.write (Path.join dir name) text = .ok e) : ∃ q, d.locate? dir = some q ∧
      d.isDirAt q = true ∧ e.dirs = d.dirs ∧
      ∀ p, e.fileAt? p = if p = q ++ [name] then some ⟨text, true⟩ else d.fileAt? p := by
  obtain ⟨p, hp, hd, rfl⟩ := write_eq_ok h
  rw [locate_join hdir hname, Option.map_eq_some_iff] at hp
  obtain ⟨q, hq, rfl⟩ := hp
  rw [List.dropLast_concat] at hd
  exact ⟨q, hq, hd, rfl, fun p => lookup_putFile ..⟩

theorem file_write_join {dir name other : String} (hdir : dir ≠ "") (ho : '/' ∉ other.toList)
    (hname : IsProper name) (hne : other ≠ name)
    (h : d.write (Path.join dir name) text = .ok e) :
    e.file? (Path.join dir other) = d.file? (Path.join dir other) := by
  obtain ⟨q, hq, -⟩ := write_join hdir hname h
  refine file_write_other h fun hp => ?_
  rw [locate_join hdir hname, locate_join_of_unslashed hdir ho, hq, Option.bind_some] at hp
  replace hp : d.walk q.reverse [other] = some (q ++ [name]) := hp.symm
  -- the dots lead to the directory or above it, any other name to a place of its own
  rw [walk_cons] at hp
  split at hp
  · simp [walk] at hp
  split at hp
  · split at hp <;> simp [walk] at hp
  split at hp
  · split at hp
    · have hlen := congrArg (Option.map List.length) hp
      simp [walk] at hlen
    · cases hp
  · simp only [walk, Option.some.injEq, List.reverse_cons, List.reverse_reverse,
      List.append_cancel_left_eq, List.cons.injEq, and_true] at hp
    exact hne hp

theorem Writes.dirs {paths : List String} (h : Writes d paths e) : e.dirs = d.dirs := by
  induction h with
  | nil d => rfl
  | cons first rest ih => exact ih.trans (write_dirs first)

theorem Writes.file_other {paths : List String} {other : String} (h : Writes d paths e)
    (hne : ∀ path ∈ paths, d.locate? path ≠ d.locate? other) : e.file? other = d.file? other := by
  induction h with
  | nil d => rfl
  | cons first rest ih =>
    obtain ⟨hfirst, hrest⟩ := List.forall_mem_cons.mp hne
    refine (ih fun path hp => ?_).trans (file_write_other first hfirst)
    rw [locate_congr (write_dirs first), locate_congr (write_dirs first)]
    exact hrest path hp

theorem Writes.locate {names : List String} {dir : String} (hdir : dir ≠ "")
    (hnames : ∀ name ∈ names, IsProper name) (hne : names ≠ [])
    (h : Writes d (names.map (Path.join dir)) e) :
    ∃ q, d.locate? dir = some q ∧ d.isDirAt q = true := by
  cases names with
  | nil => exact absurd rfl hne
  | cons name names =>
    cases h with
    | cons first rest =>
      obtain ⟨q, hq, hd, -⟩ := write_join hdir (hnames name List.mem_cons_self) first
      exact ⟨q, hq, hd⟩

theorem Writes.fileAt {names q : List String} {dir : String} (hdir : dir ≠ "")
    (hnames : ∀ name ∈ names, IsProper name) (hq : d.locate? dir = some q)
    (h : Writes d (names.map (Path.join dir)) e) :
    (∀ name ∈ names, ∃ text, e.fileAt? (q ++ [name]) = some ⟨text, true⟩) ∧
      ∀ p, (∀ name ∈ names, p ≠ q ++ [name]) → e.fileAt? p = d.fileAt? p := by
  induction names generalizing d with
  | nil =>
    cases h
    exact ⟨by simp, fun _ _ => rfl⟩
  | cons name names ih =>
    cases h with
    | cons first rest =>
      rename_i f text
      obtain ⟨r, hr, -, hdirs, hfiles⟩ := write_join hdir (hnames name List.mem_cons_self) first
      obtain rfl : q = r := Option.some.inj (hq.symm.trans hr)
      obtain ⟨hin, hout⟩ := ih (fun n hn => hnames n (List.mem_cons_of_mem _ hn))
        ((locate_congr hdirs dir).trans hq) rest
      refine ⟨fun n hn => ?_, fun p hp => ?_⟩
      · by_cases hm : n ∈ names
        · exact hin n hm
        · obtain rfl := (List.mem_cons.mp hn).resolve_right hm
          refine ⟨text, ?_⟩
          rw [hout _ fun m hm' he => ?_, hfiles, if_pos rfl]
          simp only [List.append_cancel_left_eq, List.cons.injEq, and_true] at he
          exact hm (he ▸ hm')
      · rw [hout p fun n hn => hp n (List.mem_cons_of_mem _ hn), hfiles,
          if_neg (hp name List.mem_cons_self)]

end Write

section Read
variable {d : Disk} {path text : String} {strict : Bool}

theorem feedLines_eq_self {cs : List Char} (h : '\r' ∉ cs) : feedLines cs = cs := by
  induction cs with
  | nil => rfl
  | cons c cs ih =>
    rw [List.mem_cons, not_or] at h
    rw [feedLines.eq_def]
    split
    · cases ‹c :: cs = []›
    · exact absurd (List.cons.inj ‹_›).1.symm h.1
    · exact absurd (List.cons.inj ‹_›).1.symm h.1
    · rename_i hc
      obtain ⟨rfl, rfl⟩ := List.cons.inj hc
      rw [ih h.2]

private theorem not_mem_feedLines (cs : List Char) : '\r' ∉ feedLines cs := by
  fun_induction feedLines cs with
  | case1 => simp
  | case2 cs ih => simpa using ih
  | case3 cs _ ih => simpa using ih
  | case4 c cs _ hc ih => exact List.not_mem_cons_of_ne_of_not_mem (fun h => hc h.symm) ih

theorem read_unreturned (h : d.read path strict = .ok text) : '\r' ∉ text.toList := by
  unfold read at h
  split at h
  · split at h
    · cases h
    · rw [← Except.ok.inj h, String.toList_ofList]
      exact not_mem_feedLines _
  · split at h
    · cases h
    split at h
    · cases h
    split at h <;> cases h

theorem read_eq {read : String} (hf : d.file? path = some ⟨text, true⟩) (ht : '\r' ∉ text.toList)
    (h : d.read path strict = .ok read) : read = text := by
  rw [Disk.read, hf] at h
  simp only [Bool.not_true, Bool.and_false, Bool.false_eq_true, if_false] at h
  rw [← Except.ok.inj h, feedLines_eq_self ht, String.ofList_toList]

end Read

section Names
variable {d e : Disk} {path text : String}

private theorem mem_putFile {files : List (List String × FileContent)} {p q : List String}
    {c : FileContent} (h : q ∈ (putFile files p c).map (·.1)) : q = p ∨ q ∈ files.map (·.1) := by
  unfold putFile at h
  split at h
  · rw [List.map_map, List.mem_map] at h
    obtain ⟨f, hf, rfl⟩ := h
    by_cases he : f.1 = p
    · exact .inl (by simp [he])
    · exact .inr (by simpa [he] using ⟨f.2, hf⟩)
  · simpa [or_comm] using h

private theorem Named.write (hd : d.Named) (h : d.write path text = .ok e) : e.Named := by
  obtain ⟨p, hp, -, rfl⟩ := write_eq_ok h
  intro q hq
  rcases List.mem_append.mp hq with hq | hq
  · rcases mem_putFile hq with rfl | hq
    · exact locate_named hp
    · exact hd q (List.mem_append_left _ hq)
  · exact hd q (List.mem_append_right _ hq)

theorem Named.writes {paths : List String} (hd : d.Named) (h : Writes d paths e) : e.Named := by
  induction h with
  | nil d => exact hd
  | cons first rest ih => exact ih (hd.write first)

private theorem Named.addDir {p : List String} (hd : d.Named)
    (hp : ∀ name ∈ p, '/' ∉ name.toList) : (d.addDirs [p]).Named := by
  intro q hq
  have hor : q ∈ d.files.map (·.1) ++ d.dirs ∨ q = p := by
    simp only [addDirs, List.mem_append, List.mem_eraseDups, List.mem_filter,
      List.mem_singleton] at hq
    rcases hq with hq | hq | hq
    · exact .inl (List.mem_append_left _ hq)
    · exact .inl (List.mem_append_right _ hq)
    · exact .inr hq.1
  rcases hor with hq | rfl
  · exact hd q hq
  · exact hp

private theorem Named.makeFrom {typed seen names : List String} (hd : d.Named)
    (hs : ∀ name ∈ seen, '/' ∉ name.toList) (hn : ∀ name ∈ names, '/' ∉ name.toList)
    (h : makeFrom path d typed seen names = .ok e) : e.Named := by
  induction names generalizing d typed seen with
  | nil =>
    unfold Disk.makeFrom at h
    exact Except.ok.inj h ▸ hd
  | cons name names ih =>
    obtain ⟨hname, hnames⟩ := List.forall_mem_cons.mp hn
    unfold Disk.makeFrom at h
    dsimp only at h
    split at h
    · exact ih hd hs hnames h
    split at h
    · split at h
      · cases h
      · exact ih hd (List.forall_mem_cons.mp hs).2 hnames h
    split at h
    · split at h <;> cases h
    · have hall : ∀ n ∈ name :: seen, '/' ∉ n.toList := List.forall_mem_cons.mpr ⟨hname, hs⟩
      exact ih (hd.addDir fun n hm => hall n (List.mem_reverse.mp hm)) hall hnames h

theorem Named.makeDirs (hd : d.Named) (h : d.makeDirs path = .ok e) : e.Named := by
  unfold Disk.makeDirs at h
  split at h
  · cases h
  · refine hd.makeFrom (by simp) (fun name hn => ?_) h
    obtain ⟨cs, hcs, rfl⟩ := List.mem_map.mp hn
    rw [String.toList_ofList]
    exact not_mem_of_mem_splitChars hcs

theorem makeDirs_path (h : d.makeDirs path = .ok e) : path ≠ "" := by
  rintro rfl
  simp [Disk.makeDirs] at h

end Names

section Listing
variable {d : Disk} {dir name : String} {p names : List String}

def Lists (d : Disk) (dir name : String) : Prop :=
  ∃ q, d.locate? dir = some q ∧ d.isDirAt q = true ∧ q ++ [name] ∈ d.files.map (·.1) ++ d.dirs

theorem mem_fileNames : name ∈ d.fileNames p ↔ p ++ [name] ∈ d.files.map (·.1) := by
  rw [fileNames, mem_sorted, List.mem_filterMap, List.mem_map]
  constructor
  · rintro ⟨⟨q, c⟩, hf, hn⟩
    refine ⟨(q, c), hf, ?_⟩
    dsimp only at hn
    split at hn
    · rename_i last hlast
      split at hn
      · rename_i hp
        obtain rfl := Option.some.inj hn
        rw [← hp, List.dropLast_append_getLast? _ hlast]
      · cases hn
    · cases hn
  · rintro ⟨⟨q, c⟩, hf, rfl⟩
    exact ⟨(p ++ [name], c), hf, by simp⟩

theorem mem_dirNames : name ∈ d.dirNames p ↔ p ++ [name] ∈ d.dirs := by
  rw [dirNames, mem_sorted, List.mem_filterMap]
  constructor
  · rintro ⟨q, hq, hn⟩
    split at hn
    · rename_i last hlast
      split at hn
      · rename_i hp
        obtain rfl := Option.some.inj hn
        rwa [← hp, List.dropLast_append_getLast? _ hlast]
      · cases hn
    · cases hn
  · intro hq
    exact ⟨p ++ [name], hq, by simp⟩

theorem of_list (h : d.list dir = .ok names) :
    names.Nodup ∧ ∀ name, name ∈ names ↔ d.Lists dir name := by
  unfold list at h
  split at h
  · cases h
  rename_i q hq
  split at h
  · rename_i hdir
    obtain rfl := Except.ok.inj h
    refine ⟨Arrangement.nodup_arrange (nodup_sorted _), fun name => ?_⟩
    rw [Arrangement.mem_arrange, mem_sorted, List.mem_append, mem_fileNames, mem_dirNames, ← List.mem_append]
    constructor
    · intro hm
      exact ⟨q, hq, hdir, hm⟩
    · rintro ⟨r, hr, -, hm⟩
      obtain rfl := Option.some.inj (hq.symm.trans hr)
      exact hm
  · split at h <;> cases h

theorem Lists.isDir (h : d.Lists dir name) : d.isDir dir = true := by
  obtain ⟨q, hq, hdir, -⟩ := h
  rw [Disk.isDir, hq]
  exact hdir

theorem Lists.list (h : d.Lists dir name) : ∃ names, d.list dir = .ok names := by
  obtain ⟨q, hq, hdir, -⟩ := h
  rw [Disk.list, hq]
  exact ⟨_, if_pos hdir⟩

theorem Lists.unslashed (h : d.Lists dir name) (hd : d.Named) : '/' ∉ name.toList := by
  obtain ⟨q, -, -, hm⟩ := h
  exact hd _ hm name (List.mem_append_right _ (List.mem_singleton_self name))

end Listing

end Disk
end Mender
