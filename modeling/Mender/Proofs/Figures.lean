import Mender.Proofs.Location
import Mender.Proofs.Mirror.Batch
import Mender.Proofs.Removal

/-! The figures of a run agree with each other and with the files. Every round of repairs adds at
most one repair, and each repair is counted once by its method, once among the repairs and once for
its file; so whatever text is saved changed is listed. -/
namespace Mender
open Run

namespace Statistics
variable {counts : List (String × Int)} {name : String}

private theorem names_tally (counts : List (String × Int)) (name : String) :
    (tally counts name).map Prod.fst = if name ∈ counts.map Prod.fst then counts.map Prod.fst
      else counts.map Prod.fst ++ [name] := by
  have hany : (counts.any fun c => c.1 = name) = true ↔ name ∈ counts.map Prod.fst := by simp
  unfold tally
  split
  · rename_i h
    rw [if_pos (hany.mp h), List.map_map]
    refine List.map_congr_left fun c _ => ?_
    by_cases hc : c.1 = name <;> simp [hc]
  · rename_i h
    rw [if_neg (mt hany.mpr h), List.map_append]
    rfl

theorem nodup_tally (h : (counts.map Prod.fst).Nodup) (name : String) :
    ((tally counts name).map Prod.fst).Nodup := by
  rw [names_tally]
  split
  · exact h
  · rename_i hn
    rw [← List.concat_eq_append]
    exact h.concat hn

def total (counts : List (String × Int)) : Int := counts.foldr (fun c n => c.2 + n) 0

private theorem total_append (cs ds : List (String × Int)) : total
    (cs ++ ds) = total cs + total ds := by
  induction cs with
  | nil => exact (Int.zero_add _).symm
  | cons c cs ih =>
    change c.2 + total (cs ++ ds) = c.2 + total cs + total ds
    rw [ih, Int.add_assoc]

theorem total_tally (h : (counts.map Prod.fst).Nodup) (name : String) :
    total (tally counts name) = total counts + 1 := by
  have raised (cs : List (String × Int)) (hcs : (cs.map Prod.fst).Nodup) :
      total (cs.map fun c => if c.1 = name then (name, c.2 + 1) else c) =
        total cs + if name ∈ cs.map Prod.fst then 1 else 0 := by
    induction cs with
    | nil => rfl
    | cons c cs ih =>
      obtain ⟨hnew, hcs⟩ := List.nodup_cons.mp hcs
      change (if c.1 = name then (name, c.2 + 1) else c).2 + total (cs.map _) =
        c.2 + total cs + _
      rw [ih hcs, List.map_cons]
      by_cases hc : c.1 = name
      · rw [hc] at hnew
        rw [if_pos hc, if_neg hnew, if_pos (by simp [hc])]
        omega
      · have hmem : name ∈ c.1 :: cs.map Prod.fst ↔ name ∈ cs.map Prod.fst := by
          rw [List.mem_cons, or_iff_right (Ne.symm hc)]
        rw [if_neg hc]
        simp only [hmem]
        omega
  have hany : (counts.any fun c => c.1 = name) = true ↔ name ∈ counts.map Prod.fst := by simp
  unfold tally
  split
  · rename_i hm
    rw [raised counts h, if_pos (hany.mp hm)]
  · exact total_append counts [(name, 1)]

/-- The figures agree: every repair is counted once as made with the model or without it and once
by its method, and there are no more repairs than rounds. -/
structure Balanced (s : Statistics) : Prop where
  repairs : (s.fixed.length : Int) = s.localFixes + s.modelFixes
  names : (s.methods.map Prod.fst).Nodup
  methods : total s.methods = s.fixed.length
  rounds : (s.fixed.length : Int) ≤ s.rounds

end Statistics

theorem Run.Ends.since {α : Type} {F : World.Frame} {x : Run α} {a : α} {u w v : World}
    (h : Ends x w a v) (hu : F.rel u w) [Keeps F x] : F.rel u v := F.trans hu (h.keeps F)

namespace Workflow
open World
variable {u v w : World} {m : Model} {l : Language} {scope : Scope} {input : String}
variable {output : String} {s : Statistics}

  {files : List String} {c first : Counted} {t : Diagnostic.Target} {code report : String}

/-- A repair of a file, counted as one made with the model or as one made without it. -/
def Counted.Repairs (c : Counted) (t : Diagnostic.Target) (next : Counted) : Prop :=
  ∃ (k : Diagnostic.Kind) (method new : String) (byRule byModel : Int),
    byRule + byModel = c.stats.localFixes + c.stats.modelFixes + 1 ∧
    next = { c with stats := { c.stats with localFixes := byRule, modelFixes := byModel } }.revise t
      k method new

theorem repairs_countedFix {next : Counted}
    (h : Ends (countedFix m l c t code report) w (some next) v) : c.Repairs t next := by
  obtain ⟨⟨new, fixed⟩, _, -, h⟩ := h.of_bind
  dsimp only at h
  split at h
  · obtain ⟨_, _, -, h⟩ := h.of_bind
    exact ⟨_, _, new, _, _, by omega, (Option.some.inj h.of_pure.1).symm⟩
  · obtain ⟨p, _, -, h⟩ := h.of_bind
    split at h
    · obtain ⟨new, _, -, h⟩ := h.of_bind
      obtain ⟨_, _, -, h⟩ := h.of_bind
      exact ⟨_, _, new, _, _, by omega, (Option.some.inj h.of_pure.1).symm⟩
    · cases h.of_pure.1

theorem Texts.lookup_put (ts : Texts) (name code other : String) :
    (ts.put name code).lookup other = if other = name then some code else ts.lookup other := by
  have hany : (ts.any fun t => t.1 = name) = true ↔ name ∈ ts.map Prod.fst := by simp
  have replaced (ts : Texts) (h : name ∈ ts.map Prod.fst ∨ other ≠ name) :
      (ts.map fun t => if t.1 = name then (name, code) else t).lookup other =
        if other = name then some code else ts.lookup other := by
    induction ts with
    | nil => simp_all
    | cons t ts ih => grind
  unfold put
  split
  · rename_i h
    exact replaced ts (.inl (hany.mp h))
  · rename_i h
    rw [List.lookup_append]
    by_cases ho : other = name
    · have hnone : ts.lookup other = none := by
        rw [List.lookup_eq_none_iff]
        grind
      rw [hnone, if_pos ho, ho]
      simp
    · rw [if_neg ho, List.lookup_cons, beq_eq_false_iff_ne.mpr ho]
      simp

theorem Texts.lookup_of_mem {ts : Texts} {t : String × String} (hnodup : (ts.map Prod.fst).Nodup)
    (h : t ∈ ts) : ts.lookup t.1 = some t.2 := by
  induction ts with
  | nil => cases h
  | cons s ts ih => grind

/-- The figures keep account of the texts since a first state: they agree, and a text that is not
listed as repaired is as it was. -/
structure Counted.Tracks (first c : Counted) : Prop where
  balanced : c.stats.Balanced
  initial : c.stats.initial = first.stats.initial
  processed : c.stats.filesProcessed = first.stats.filesProcessed
  names : c.texts.map Prod.fst = first.texts.map Prod.fst
  files : c.fixed = c.stats.fixed.map FixedError.file
  known : ∀ name ∈ c.fixed, name ∈ first.texts.map Prod.fst
  unchanged : ∀ name, name ∉ c.fixed → c.texts.lookup name = first.texts.lookup name

private theorem Counted.Tracks.repair {next : Counted} (h : first.Tracks c) (hn : c.Repairs t next)
    (ht : t.file ∈ c.texts.map Prod.fst) (hround : (c.stats.fixed.length : Int) < c.stats.rounds) :
    first.Tracks next := by
  have hput (new : String) : (c.texts.put t.file new).map Prod.fst = first.texts.map Prod.fst := by
    rw [Texts.names_put, if_pos ht, h.names]
  have hknown : ∀ name ∈ c.fixed ++ [t.file], name ∈ first.texts.map Prod.fst := by
    intro name hm
    rcases List.mem_append.mp hm with hm | hm
    · exact h.known name hm
    · rw [List.mem_singleton.mp hm, ← h.names]
      exact ht
  have hunchanged (new name : String) (hm : name ∉ c.fixed ++ [t.file]) :
      (c.texts.put t.file new).lookup name = first.texts.lookup name := by
    rw [List.mem_append, List.mem_singleton, not_or] at hm
    rw [Texts.lookup_put, if_neg hm.2, h.unchanged name hm.1]
  have hrepairs := h.balanced.repairs
  have hmethods := h.balanced.methods
  obtain ⟨k, method, new, byRule, byModel, hone, rfl⟩ := hn
  refine ⟨⟨?_, Statistics.nodup_tally h.balanced.names _, ?_, ?_⟩, h.initial, h.processed,
    hput new, ?_, hknown, hunchanged new⟩
  · simp only [revise, Statistics.addFixed, List.length_append, List.length_singleton]
    omega
  · simp only [revise, Statistics.addFixed, List.length_append, List.length_singleton,
      Statistics.total_tally h.balanced.names]
    omega
  · simp only [revise, Statistics.addFixed, List.length_append, List.length_singleton]
    omega
  · simp [revise, Statistics.addFixed, h.files]

private theorem Counted.Tracks.round {n : Int} (h : first.Tracks c) (hn : c.stats.rounds ≤ n) :
    first.Tracks { c with stats := { c.stats with rounds := n } } where
  balanced := { h.balanced with rounds := h.balanced.rounds.trans hn }
  initial := h.initial
  processed := h.processed
  names := h.names
  files := h.files
  known := h.known
  unchanged := h.unchanged

theorem tracks_countedLoop {left : Nat} {c' : Counted} (hc : first.Tracks c)
    (hleft : left ≤ countedRounds) (hrounds : c.stats.rounds = (countedRounds - left : Nat))
    (h : Ends (countedLoop m l scope input files left c) w c' v) :
    first.Tracks c' ∧ c'.stats.rounds ≤ countedRounds := by
  induction left generalizing c w with
  | zero =>
    obtain ⟨rfl, -⟩ := h.of_pure
    exact ⟨hc, by rw [hrounds]; simp⟩
  | succ left ih =>
    unfold countedLoop at h
    dsimp only at h
    have hround := hc.round (n := (countedRounds - left : Nat)) (by omega)
    have hfew : (c.stats.fixed.length : Int) < (countedRounds - left : Nat) := by
      have := hc.balanced.rounds
      omega
    have hlimit : ((countedRounds - left : Nat) : Int) ≤ countedRounds := by omega
    generalize hd : ({ c with stats := { c.stats with rounds := _ } } : Counted) = d at h hround
    have hrounds : d.stats.rounds = (countedRounds - left : Nat) := hd ▸ rfl
    have hfixed : d.stats.fixed = c.stats.fixed := hd ▸ rfl
    have htexts : d.texts = c.texts := hd ▸ rfl
    -- every way out of a round gives the files of its start
    have stop {c' : Counted} (he : d = c') :
        first.Tracks c' ∧ c'.stats.rounds ≤ countedRounds := by
      subst he
      exact ⟨hround, hrounds ▸ hlimit⟩
    obtain ⟨compiled, _, -, h⟩ := h.of_bind
    split at h
    · obtain ⟨_, _, -, h⟩ := h.of_bind
      exact stop h.of_pure.1
    · obtain ⟨target, _, -, h⟩ := h.of_bind
      cases target with
      | none =>
        obtain ⟨_, _, -, h⟩ := h.of_bind
        exact stop h.of_pure.1
      | some t =>
        obtain ⟨_, _, -, h⟩ := h.of_bind
        split at h
        · exact ih hround (by omega) hrounds h
        · rename_i hlookup
          obtain ⟨next, _, hfix, h⟩ := h.of_bind
          cases next with
          | some next =>
            have hrepairs := repairs_countedFix hfix
            have hnext : next.stats.rounds = d.stats.rounds := by
              obtain ⟨k, method, new, byRule, byModel, -, rfl⟩ := hrepairs
              rfl
            refine ih (hround.repair hrepairs (htexts ▸ Texts.mem_of_lookup hlookup) ?_) (by omega)
              (hnext.trans hrounds) h
            rw [hfixed, hrounds]
            exact hfew
          | none =>
            obtain ⟨_, _, -, h⟩ := h.of_bind
            exact stop h.of_pure.1

/-- If each file is read and its text put under its name, the texts are those on the disk. -/
theorem read_foldlM {f : Texts → String → Run Texts} {texts : Texts}
    (step : ∀ {ts path ts' w v}, Ends (f ts path) w ts' v → ∃ source,
      w.disk.read path false = .ok source ∧ ts' = ts.put (Path.baseName path) source ∧
        v.disk = w.disk)
    (hnodup : (files.map Path.baseName).Nodup) (h : Ends (files.foldlM f []) w texts v) :
    ∀ path ∈ files, ∃ source,
      w.disk.read path false = .ok source ∧ texts.lookup (Path.baseName path) = some source := by
  suffices hread : ∀ (ts : Texts) (w : World), Ends (files.foldlM f ts) w texts v →
      (∀ name ∉ files.map Path.baseName, texts.lookup name = ts.lookup name) ∧
      ∀ path ∈ files, ∃ source, w.disk.read path false = .ok source ∧
        texts.lookup (Path.baseName path) = some source from (hread [] w h).2
  clear h
  intro ts w h
  induction files generalizing ts w with
  | nil =>
    obtain ⟨rfl, -⟩ := h.of_pure
    exact ⟨fun _ _ => rfl, by simp⟩
  | cons path files ih =>
    obtain ⟨hnew, hnodup⟩ := List.nodup_cons.mp hnodup
    rw [List.foldlM_cons] at h
    obtain ⟨_, _, hf, h⟩ := h.of_bind
    obtain ⟨source, hread, rfl, hdisk⟩ := step hf
    obtain ⟨hothers, hrest⟩ := ih hnodup _ _ h
    rw [hdisk] at hrest
    refine ⟨fun name hn => ?_, List.forall_mem_cons.mpr ⟨⟨source, hread, ?_⟩, hrest⟩⟩
    · rw [List.map_cons, List.mem_cons, not_or] at hn
      rw [hothers name hn.2, Texts.lookup_put, if_neg hn.1]
    · rw [hothers _ hnew, Texts.lookup_put, if_pos rfl]

theorem read_readTexts {texts : Texts} (hnodup : (files.map Path.baseName).Nodup)
    (h : Ends (readTexts files) w texts v) : ∀ path ∈ files, ∃ source,
      w.disk.read path false = .ok source ∧ texts.lookup (Path.baseName path) = some source := by
  refine read_foldlM (fun h => ?_) hnodup h
  obtain ⟨source, _, hr, h⟩ := h.of_bind
  obtain ⟨hread, rfl⟩ := hr.of_readFile
  obtain ⟨rfl, rfl⟩ := h.of_pure
  exact ⟨source, hread, rfl, rfl⟩

private theorem unwritten_initialErrors : Keeps unwritten (initialErrors l files) := by
  unfold initialErrors
  infer_instance

def Counted.start (texts : Texts) (initial : List FoundError) (files : List String) : Counted where
  texts := texts
  stats := { initial := initial, filesProcessed := files.length }

private theorem Counted.tracks_start (texts : Texts) (initial : List FoundError)
    (files : List String) : (start texts initial files).Tracks (start texts initial files) where
  balanced := ⟨rfl, List.nodup_nil, rfl, le_refl _⟩
  initial := rfl
  processed := rfl
  names := rfl
  files := rfl
  known := by simp [start]
  unchanged _ _ := rfl

theorem of_countedPhases (h : Ends (countedPhases l scope input output files) w s v) :
    ∃ (initial final : List FoundError) (texts : Texts) (c : Counted) (x x' y y' z : World),
      (Counted.start texts initial files).Tracks c ∧ c.stats.rounds ≤ countedRounds ∧
      s = { c.stats with final := final, filesFixed := (Text.sorted c.fixed).length } ∧
      x.disk = w.disk ∧ Ends (readTexts files) x texts x' ∧
      grown.rel w y ∧ Ends (finalErrors l c.texts) y final y' ∧
      Ends (saveFiles output c.texts) y' () z ∧ ∀ name, (undisturbed output name).rel z v := by
  have hread : Keeps unwritten (initialErrors l files) := unwritten_initialErrors
  obtain ⟨_, _, hu, h⟩ := h.of_bind
  obtain ⟨initial, _, hinitial, h⟩ := h.of_bind
  obtain ⟨_, _, hsaid, h⟩ := h.of_bind
  obtain ⟨_, _, hsaid', h⟩ := h.of_bind
  obtain ⟨m, x, hm, h⟩ := h.of_bind
  obtain ⟨texts, x', htexts, h⟩ := h.of_bind
  obtain ⟨c, _, hloop, h⟩ := h.of_bind
  obtain ⟨_, y, hsaid'', h⟩ := h.of_bind
  obtain ⟨final, y', hfinal, h⟩ := h.of_bind
  obtain ⟨_, z, hsave, h⟩ := h.of_bind
  obtain ⟨_, v', hremove, h⟩ := h.of_bind
  obtain ⟨rfl, rfl⟩ := h.of_pure
  obtain ⟨htracks, hlimit⟩ := tracks_countedLoop (Counted.tracks_start texts initial files)
    (le_refl _) (by simp [Counted.start]) hloop
  refine ⟨initial, final, texts, c, x, x', y, y', z, htracks, hlimit, rfl, ?_, htexts, ?_, hfinal,
    hsave, fun name => hremove.keeps _⟩
  · exact hm.since (hsaid'.since (hsaid.since (hinitial.since (hu.keeps unwritten))))
  · refine hsaid''.since (hloop.since (htexts.since ?_))
    exact hm.since (hsaid'.since (hsaid.since (hinitial.since (hu.keeps grown))))

theorem balanced_countedPhases (h : Ends (countedPhases l scope input output files) w s v) :
    s.Balanced ∧ s.rounds ≤ countedRounds := by
  obtain ⟨initial, final, texts, c, x, x', y, y', z, htracks, hlimit, rfl, -⟩ := of_countedPhases h
  exact ⟨⟨htracks.balanced.repairs, htracks.balanced.names, htracks.balanced.methods,
    htracks.balanced.rounds⟩, hlimit⟩

private theorem length_sorted (names : List String) :
    (Text.sorted names).length = names.toFinset.card := by
  rw [← List.toFinset_card_of_nodup (Text.nodup_sorted names)]
  congr 1
  ext name
  rw [List.mem_toFinset, List.mem_toFinset, Text.mem_sorted]

/-- The figures speak of the files: those that were changed are the distinct ones among the repairs,
and a file that is saved with another text than it was read with is one of them. -/
theorem files_countedPhases (hout : output ≠ "")
    (hproper : ∀ path ∈ files.tail, Disk.IsProper (Path.baseName path))
    (hnodup : (files.map Path.baseName).Nodup)
    (h : Ends (countedPhases l scope input output files) w s v) :
    s.filesProcessed = files.length ∧
      s.filesFixed = (s.fixed.map FixedError.file).toFinset.card ∧
      s.filesFixed ≤ s.filesProcessed ∧
      ∀ path ∈ files, ∃ source text, w.disk.read path false = .ok source ∧
        w.InStep v output (Path.baseName path) text ∧
        (text ≠ source → Path.baseName path ∈ s.fixed.map FixedError.file) := by
  obtain ⟨initial, final, texts, c, x, x', y, y', z, htracks, -, rfl, hdisk, hread, hgrown, hfinal,
    hsave, hcalm⟩ := of_countedPhases h
  have hfirst : texts.map Prod.fst = files.map Path.baseName := names_readTexts hnodup hread
  have hnames : c.texts.map Prod.fst = files.map Path.baseName := htracks.names.trans hfirst
  have hfixed : c.fixed.toFinset ⊆ (files.map Path.baseName).toFinset := by
    intro name hn
    rw [List.mem_toFinset] at hn ⊢
    rw [← hfirst]
    exact htracks.known name hn
  refine ⟨htracks.processed, ?_, ?_, fun path hp => ?_⟩
  · dsimp only
    rw [← htracks.files, length_sorted]
  · dsimp only
    rw [htracks.processed, length_sorted]
    have hcard := (Finset.card_le_card hfixed).trans (List.toFinset_card_le _)
    rw [List.length_map] at hcard
    exact Int.ofNat_le.mpr hcard
  · obtain ⟨source, hsource, hlookup⟩ := read_readTexts hnodup hread path hp
    rw [hdisk] at hsource
    have hname : Path.baseName path ∈ c.texts.map Prod.fst := hnames ▸ List.mem_map_of_mem hp
    obtain ⟨t, ht, he⟩ := List.mem_map.mp hname
    have hheld := holds_finalErrors (hnames ▸ hnodup) hfinal
    have hstep := inStep_saveFiles_of_mem hout hproper hnodup hnames hheld hsave t ht
    refine ⟨source, t.2, hsource, he ▸ (hstep.past (hcalm t.1)).of_grown hgrown, fun hne => ?_⟩
    -- a text that is not listed as repaired is still the one that was read
    by_contra hn
    rw [← htracks.files] at hn
    have hsame := htracks.unchanged _ hn
    rw [← he, Texts.lookup_of_mem (hnames ▸ hnodup) ht, he] at hsame
    exact hne (Option.some.inj (hsame.trans hlookup))

section Whole
variable {out lang : Option String}

theorem locate_countedFiles {d : Disk} (hd : d.Named) (hinput : Glob.hasWildcard input = false) :
    ∀ path ∈ (countedFiles d input lang).1, ∃ p, d.locate? path = some p := by
  unfold countedFiles
  split
  · rename_i hfile
    obtain ⟨c, hc⟩ := Option.isSome_iff_exists.mp hfile
    obtain ⟨-, p, hp, -⟩ := Disk.file_eq_some hc
    exact List.forall_mem_singleton.mpr ⟨p, hp⟩
  · dsimp only
    intro path hp
    split at hp
    · exact Glob.locate_selected hd hinput hp
    · exact Glob.locate_selected (l := .python) hd hinput hp

theorem of_counting {s : Statistics} {dir : String}
    (h : Ends (counting input out lang scope) w (some (s, dir)) v) :
    ∃ (d : Disk) (l : Language) (u : World), (countedFiles w.disk input lang).1 ≠ [] ∧
      dir = outputDir (countedFiles w.disk input lang).2.1 out ∧ w.disk.makeDirs dir = .ok d ∧
      u.disk = d ∧ grown.rel w u ∧
      Ends (countedPhases l scope (countedFiles w.disk input lang).2.1 dir
        (countedFiles w.disk input lang).1) u s v := by
  obtain ⟨d, _, hd, h⟩ := h.of_bind
  obtain ⟨rfl, rfl⟩ := hd.of_disk
  generalize countedFiles w.disk input lang = found at *
  obtain ⟨files, home, found⟩ := found
  dsimp only at h ⊢
  split at h
  · obtain ⟨_, _, -, h⟩ := h.of_bind
    cases h.of_pure.1
  rename_i hfiles
  obtain ⟨_, _, hm, h⟩ := h.of_bind
  have hg := hm.keeps grown
  obtain ⟨d, hmake, rfl⟩ := hm.of_makeDirs
  obtain ⟨_, _, hbar, h⟩ := h.of_bind
  cases found with
  | none => cases h
  | some lang =>
    obtain ⟨_, _, hlang, h⟩ := h.of_bind
    obtain ⟨_, _, hin, h⟩ := h.of_bind
    obtain ⟨_, _, hdir, h⟩ := h.of_bind
    obtain ⟨_, _, hbar', h⟩ := h.of_bind
    obtain ⟨_, _, hup, h⟩ := h.of_bind
    obtain ⟨l, x, hl, h⟩ := h.of_bind
    obtain ⟨stats, _, hphases, h⟩ := h.of_bind
    obtain ⟨he, rfl⟩ := h.of_pure
    obtain ⟨rfl, rfl⟩ := Prod.mk.inj (Option.some.inj he)
    refine ⟨d, l, x, by simpa using hfiles, rfl, hmake, ?_, ?_, hphases⟩
    · exact hl.since (hup.since (hbar'.since (hdir.since (hin.since (hlang.since
        (hbar.keeps unwritten))))))
    · exact hl.since (hup.since (hbar'.since (hdir.since (hin.since (hlang.since
        (hbar.since hg))))))

private theorem of_publish {s : Statistics} {path : Option String} {summary : Statistics.Summary}
    (h : Ends (s.publish path) w summary v) : summary = s.summary := by
  obtain ⟨_, _, -, h⟩ := h.of_bind
  split at h
  · exact h.of_pure.1.symm
  · obtain ⟨_, _, -, h⟩ := h.of_bind
    obtain ⟨_, _, -, h⟩ := h.of_bind
    exact h.of_pure.1.symm

theorem of_counted {summary : Statistics.Summary}
    (h : Ends (counted input out lang scope) w (some summary) v) :
    ∃ (s : Statistics) (dir : String) (u : World),
      Ends (counting input out lang scope) w (some (s, dir)) u ∧
      Ends (s.publish (some (Path.join dir "fix_report.txt"))) u summary v ∧
      summary = s.summary := by
  rw [counted_eq] at h
  obtain ⟨found, u, hc, h⟩ := h.of_bind
  cases found with
  | none => cases h.of_pure.1
  | some found =>
    obtain ⟨s, dir⟩ := found
    obtain ⟨_, _, hp, h⟩ := Ends.of_bind h
    obtain ⟨he, rfl⟩ := h.of_pure
    obtain rfl := Option.some.inj he
    exact ⟨s, dir, u, hc, hp, of_publish hp⟩

/-- The figures of a completed run agree with each other and with the files. The repairs are those
with the model and those without it, and as many as the methods count together; there are at most as
many as rounds, and at most 20 rounds. The files changed are the distinct ones among the repairs, and
no more than all files. A file saved with another text than it was read with is among the repairs,
unless it has the name of the report: then the report stands in its place. -/
theorem figures_balance {summary : Statistics.Summary}
    (hinput : Glob.hasWildcard input = false) (hnamed : w.disk.Named)
    (h : Ends (counted input out lang scope) w (some summary) v) :
    ∃ (s : Statistics) (u : World), Ends (counting input out lang scope) w
        (some (s, outputDir (countedFiles w.disk input lang).2.1 out)) u ∧
      summary = s.summary ∧
      (s.fixed.length : Int) = s.localFixes + s.modelFixes ∧
      Statistics.total s.methods = s.fixed.length ∧
      (s.fixed.length : Int) ≤ s.rounds ∧ s.rounds ≤ 20 ∧
      s.filesFixed = (s.fixed.map FixedError.file).toFinset.card ∧
      s.filesFixed ≤ s.filesProcessed ∧
      s.filesProcessed = (countedFiles w.disk input lang).1.length ∧
      ∀ path ∈ (countedFiles w.disk input lang).1, ∃ source saved,
        w.disk.read path false = .ok source ∧
        v.disk.file? (Path.join (outputDir (countedFiles w.disk input lang).2.1 out)
          (Path.baseName path)) = some ⟨saved, true⟩ ∧
        (Path.baseName path = "fix_report.txt" → saved = s.report) ∧
        (saved ≠ source → Path.baseName path ∈ s.fixed.map FixedError.file ∨
          Path.baseName path = "fix_report.txt") := by
  obtain ⟨s, dir, u, hc, hp, hsum⟩ := of_counted h
  obtain ⟨d, l, x, hne, rfl, hmake, hdisk, hgrown, hphases⟩ := of_counting hc
  obtain ⟨hproper, hnodup⟩ := countedFiles_spec lang hnamed hinput
  have hout := Disk.makeDirs_path hmake
  obtain ⟨hbalanced, hlimit⟩ := balanced_countedPhases hphases
  obtain ⟨hprocessed, hfixed, hfew, hfiles⟩ := files_countedPhases hout hproper hnodup hphases
  refine ⟨s, u, hc, hsum, hbalanced.repairs, hbalanced.methods, hbalanced.rounds, hlimit,
    hfixed, hfew, hprocessed, fun path hpath => ?_⟩
  obtain ⟨source, text, hread, hstep, hlisted⟩ := hfiles path hpath
  obtain ⟨p, hplace⟩ := locate_countedFiles hnamed hinput path hpath
  rw [hdisk] at hread
  have hsource := Disk.read_of_file_eq (Disk.file_makeDirs hmake hplace).symm hread
  obtain ⟨-, hsaved⟩ := saved_publish hout (Path.baseName_unslashed path) hstep hp
  refine ⟨source, _, hsource, hsaved, fun hn => if_pos hn, fun hdiffers => ?_⟩
  by_cases hn : Path.baseName path = "fix_report.txt"
  · exact .inr hn
  · rw [if_neg hn] at hdiffers
    exact .inl (hlisted hdiffers)

/-- The report is saved in place of a script with its name, which is not among the repairs. -/
theorem report_saved_unlisted : Glob.hasWildcard "fix_report.txt" = false ∧
    Batch.reporting.disk.Named ∧ ∃ (summary : Statistics.Summary) (v : World) (s : Statistics),
      Ends (counted "fix_report.txt" none (some "python")) Batch.reporting (some summary) v ∧
      summary = s.summary ∧ s.fixed = [] ∧
      Batch.reporting.disk.read "fix_report.txt" false = .ok "x = 1\n" ∧
      v.disk.file? "_fixed/fix_report.txt" = some ⟨s.report, true⟩ ∧ s.report ≠ "x = 1\n" := by
  have hplain : Glob.hasWildcard "fix_report.txt" = false := by decide
  have hnamed : Batch.reporting.disk.Named := by decide
  have hrun : (((counted "fix_report.txt" none (some "python")).result
      Batch.reporting).toOption.join.map (·.fixed)) = some 0 := by
    decide +kernel
  have hfile : ((counted "fix_report.txt" none (some "python")).after
      Batch.reporting).disk.file? "_fixed/fix_report.txt" ≠ some ⟨"x = 1\n", true⟩ := by
    decide +kernel
  have hpath : Path.join (outputDir (countedFiles Batch.reporting.disk "fix_report.txt"
      (some "python")).2.1 none) (Path.baseName "fix_report.txt") = "_fixed/fix_report.txt" := by
    decide +kernel
  cases hr : (counted "fix_report.txt" none (some "python")).result Batch.reporting with
  | error e => simp [hr, Except.toOption] at hrun
  | ok found =>
    cases found with
    | none => simp [hr, Except.toOption] at hrun
    | some summary =>
      have hnone : summary.fixed = 0 := by simpa [hr, Except.toOption] using hrun
      have h := ends_of_result hr
      obtain ⟨s, u, -, hsum, -, -, -, -, -, -, -, hfiles⟩ := figures_balance hplain hnamed h
      obtain ⟨source, saved, hread, hsaved, hreport, -⟩ :=
        hfiles "fix_report.txt" (by decide +kernel)
      obtain rfl := hreport (by decide +kernel)
      rw [hpath] at hsaved
      rw [hsum] at hnone
      have hfixed : s.fixed = [] := List.length_eq_zero_iff.mp hnone
      refine ⟨hplain, hnamed, summary, _, s, h, hsum, hfixed, by decide +kernel, hsaved, ?_⟩
      intro he
      exact hfile (he ▸ hsaved)

end Whole

end Workflow
end Mender
