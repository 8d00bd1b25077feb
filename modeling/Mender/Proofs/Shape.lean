import Mender.Proofs.Comment
import Mender.Proofs.Extraction

/-! The shape of the data taken from an answer, whatever the answer is: words with single spaces
between them and no fence of backticks, and where they begin with an opening brace, no more than one
object. -/
namespace Mender.Text

/-- A text without blanks at its ends, in which each run of blanks is a single space. -/
structure Compact (cs : List Char) : Prop where
  head : ∀ c ∈ cs.head?, isBlank c = false
  last : ∀ c ∈ cs.getLast?, isBlank c = false
  runs : ∀ w, w <:+: cs → w ≠ [] → (∀ c ∈ w, isBlank c = true) → w = [' ']

namespace Compact
variable {c : Char} {cs w : List Char}

theorem nil : Compact [] :=
  ⟨by simp, by simp, fun _ hw hne _ => absurd (List.infix_nil.mp hw) hne⟩

private theorem not_begins {x : List Char} (hc : isBlank c = false) (hw : x <+: c :: cs)
    (hne : x ≠ []) (hb : ∀ d ∈ x, isBlank d = true) : False := by
  obtain ⟨d, v, rfl⟩ := List.exists_cons_of_ne_nil hne
  obtain ⟨rfl, -⟩ := List.cons_prefix_cons.mp hw
  rw [hb d List.mem_cons_self] at hc
  cases hc

private theorem cons (hc : isBlank c = false) (h : Compact cs) : Compact (c :: cs) where
  head := by simpa using hc
  last := by
    cases cs with
    | nil => simpa using hc
    | cons d cs =>
      rw [List.getLast?_cons_cons]
      exact h.last
  runs := by
    intro w hw hne hb
    rcases List.infix_cons_iff.mp hw with hw | hw
    · exact (not_begins hc hw hne hb).elim
    · exact h.runs w hw hne hb

private theorem cons_space (hc : isBlank c = false) (hne : cs ≠ []) (h : Compact cs) :
    Compact (c :: ' ' :: cs) where
  head := by simpa using hc
  last := by
    obtain ⟨d, cs, rfl⟩ := List.exists_cons_of_ne_nil hne
    rw [List.getLast?_cons_cons, List.getLast?_cons_cons]
    exact h.last
  runs := by
    intro w hw hw0 hb
    rcases List.infix_cons_iff.mp hw with hw | hw
    · exact (not_begins hc hw hw0 hb).elim
    rcases List.infix_cons_iff.mp hw with hw | hw
    · obtain ⟨e, v, rfl⟩ := List.exists_cons_of_ne_nil hw0
      obtain ⟨rfl, hv⟩ := List.cons_prefix_cons.mp hw
      obtain ⟨d, cs, rfl⟩ := List.exists_cons_of_ne_nil hne
      cases v with
      | nil => rfl
      | cons f v =>
        exact (not_begins (h.head d rfl) hv (List.cons_ne_nil f v)
          fun x hx => hb x (List.mem_cons_of_mem _ hx)).elim
    · exact h.runs w hw hw0 hb

theorem intercalate {ws : List (List Char)}
    (h : ∀ w ∈ ws, w ≠ [] ∧ ∀ c ∈ w, isBlank c = false) : Compact ([' '].intercalate ws) := by
  have hsolid {w x : List Char} (hw : ∀ c ∈ w, isBlank c = false) (hx : Compact x) :
      Compact (w ++ x) := by
    induction w with
    | nil => exact hx
    | cons c w ih =>
      obtain ⟨hc, hw⟩ := List.forall_mem_cons.mp hw
      exact (ih hw).cons hc
  induction ws with
  | nil => exact nil
  | cons w ws ih =>
    obtain ⟨⟨hne, hw⟩, hws⟩ := List.forall_mem_cons.mp h
    cases ws with
    | nil => simpa [List.intercalate] using hsolid hw nil
    | cons v ws =>
      rw [intercalate_cons_cons]
      obtain ⟨init, c, rfl⟩ := List.eq_nil_or_concat w |>.resolve_left hne
      rw [List.concat_eq_append, List.append_assoc]
      rw [List.concat_eq_append, List.forall_mem_append, List.forall_mem_singleton] at hw
      refine hsolid hw.1 ((ih hws).cons_space hw.2 ?_)
      obtain ⟨hv, -⟩ := hws v List.mem_cons_self
      cases ws with
      | nil => simpa [List.intercalate] using hv
      | cons u ws => simp [hv]

theorem of_prefix (h : Compact cs) (hw : w <+: cs) (hl : ∀ c ∈ w.getLast?, isBlank c = false) :
    Compact w where
  head := by
    cases w with
    | nil => simp
    | cons d w =>
      obtain ⟨r, rfl⟩ := hw
      exact h.head
  last := hl
  runs := fun v hv => h.runs v (hv.trans hw.isInfix)

theorem trim_eq {s : String} (h : Compact s.toList) : trim s = s := by
  have hstart : trimStart s = s := by
    rw [← String.toList_inj, trimStart_toList, List.dropWhile_eq_self_iff]
    intro hl
    simp [h.head _ (List.head?_eq_getElem? ▸ List.getElem?_eq_getElem hl)]
  rw [trim, hstart, ← String.toList_inj, trimEnd_toList, List.rdropWhile_eq_self_iff]
  intro hl
  simp [h.last _ (List.getLast?_eq_some_getLast hl)]

end Compact

end Mender.Text

namespace Mender.Answer
open Text

theorem no_fence_dataPart (reply : String) : ¬ ['`', '`', '`'] <:+: (dataPart reply).toList := by
  have htrim {s : String} (h : ¬ ['`', '`', '`'] <:+: s.toList) :
      ¬ ['`', '`', '`'] <:+: (trim s).toList := by
    obtain ⟨as, bs, -, -, hs⟩ := exists_trim s
    exact fun hin => h (hin.trans ⟨as, bs, hs.symm⟩)
  have hpiece (s : String) (i : Nat) :
      ¬ ['`', '`', '`'] <:+: ((splitOnText "```" s).getD i "").toList := by
    rw [List.getD_eq_getElem?_getD]
    cases hi : (splitOnText "```" s)[i]? with
    | none => exact fun hin => absurd (List.infix_nil.mp hin) (by decide)
    | some piece => exact not_infix_of_mem_splitOnText (by decide) (List.mem_of_getElem? hi)
  unfold dataPart
  split
  · exact htrim (hpiece _ 0)
  · split
    · exact htrim (hpiece _ 1)
    · rename_i hnone
      have hreply : ¬ "```".toList <:+: reply.toList := mt contains_iff.mpr hnone
      split
      · refine fun hin => hreply (hin.trans ?_)
        rw [between, String.toList_ofList]
        exact (List.take_prefix ..).isInfix.trans (List.drop_suffix ..).isInfix
      · exact htrim hreply

theorem Bridged.infix_source {a b : Char} {new x y w : List Char} (h : Bridged a b new x y)
    (hne : new ≠ []) (hnew : ∀ c ∈ w, c ∉ new) (hw : w <:+: y) : w <:+: x := by
  -- at the start of a text each character of the piece is a kept one
  have hstart {x y w : List Char} (h : Bridged a b new x y) (hnew : ∀ c ∈ w, c ∉ new)
      (hw : w <+: y) : w <+: x := by
    induction w generalizing x y with
    | nil => exact List.nil_prefix
    | cons c w ih =>
      obtain ⟨hc, hnew⟩ := List.forall_mem_cons.mp hnew
      cases h with
      | nil => cases List.prefix_nil.mp hw
      | keep hn h =>
        obtain ⟨rfl, hrest⟩ := List.cons_prefix_cons.mp hw
        exact List.cons_prefix_cons.mpr ⟨rfl, ih h hnew hrest⟩
      | gap hb h =>
        obtain ⟨d, new, rfl⟩ := List.exists_cons_of_ne_nil hne
        obtain ⟨rfl, -⟩ := List.cons_prefix_cons.mp hw
        exact absurd List.mem_cons_self hc
  have hskip {v y : List Char} (hv : ∀ c ∈ w, c ∉ v) (hw : w <:+: v ++ y) : w <:+: y := by
    induction v with
    | nil => exact hw
    | cons d v ih =>
      rcases List.infix_cons_iff.mp hw with hw | hw
      · cases w with
        | nil => exact List.nil_infix
        | cons c w =>
          obtain ⟨rfl, -⟩ := List.cons_prefix_cons.mp hw
          exact absurd List.mem_cons_self (hv c List.mem_cons_self)
      · exact ih (fun c hc hm => hv c hc (List.mem_cons_of_mem d hm)) hw
  induction h with
  | nil => exact hw
  | keep hn h ih =>
    rcases List.infix_cons_iff.mp hw with hw | hw
    · exact (hstart (.keep hn h) hnew hw).isInfix
    · exact List.infix_cons (ih hw)
  | @gap v x y hb h ih =>
    exact (ih (hskip hnew hw)).trans ((List.suffix_cons b x).trans
      ((List.suffix_append ..).trans (List.suffix_cons ..))).isInfix

private theorem infix_of_infix_spaced {w cs : List Char} (hw : ∀ c ∈ w, isBlank c = false)
    (h : w <:+: spaced cs) : w <:+: cs := by
  have hspace : ' ' ∉ w := fun hm => absurd (hw ' ' hm) (by decide)
  have hwords {ws : List (List Char)} (hws : ∀ v ∈ ws, v <:+: cs) (h : w <:+: [' '].intercalate ws) :
      w <:+: cs := by
    induction ws with
    | nil => exact List.infix_nil.mp h ▸ List.nil_infix
    | cons v ws ih =>
      obtain ⟨hv, hws⟩ := List.forall_mem_cons.mp hws
      cases ws with
      | nil => exact .trans (by simpa [List.intercalate] using h) hv
      | cons u ws =>
        rw [intercalate_cons_cons] at h
        rcases infix_or_infix hspace h with h | h
        · exact h.trans hv
        · exact ih hws h
  exact hwords (fun v hv => (mem_wordChars hv).2.2) h

theorem no_fence_tidy {s : String} (h : ¬ ['`', '`', '`'] <:+: s.toList) :
    ¬ ['`', '`', '`'] <:+: (tidy s).toList := by
  simp only [tidy, commaBrace_eq, commaBracket_eq, braceBrace_eq, join_words]
  intro hin
  have hwords := infix_of_infix_spaced (forall_mem_of_all (by decide)) hin
  have hback {a b : Char} {new text : String} (hne : new.toList ≠ []) (hnew : '`' ∉ new.toList)
      (hin : ['`', '`', '`'] <:+: ((gap a b).replaceAll new text).toList) :
      ['`', '`', '`'] <:+: text.toList := by
    refine (bridged_replaceAll a b new text).infix_source hne (fun c hc => ?_) hin
    rwa [List.eq_of_mem_replicate (show c ∈ List.replicate 3 '`' from hc)]
  exact h (hback (by decide) (by decide) (hback (by decide) (by decide)
    (hback (by decide) (by decide) hwords)))

/-- With `d` braces open before, a text leaves some open up to its last character, and if it closes
them all, it ends with doing so. -/
structure OpenFrom (d : Nat) (cs : List Char) : Prop where
  before : ∀ p, p <+: cs → p ≠ cs → p.count '\x7d' < d + p.count '\x7b'
  whole : cs.count '\x7d' < d + cs.count '\x7b' ∨
    cs.count '\x7d' = d + cs.count '\x7b' ∧ cs.getLast? = some '\x7d'

namespace OpenFrom
variable {d e : Nat} {c : Char} {cs : List Char}

private theorem nil (h : 0 < d) : OpenFrom d [] :=
  ⟨fun _ hp hne => absurd (List.prefix_nil.mp hp) hne, .inl (by simpa using h)⟩

private theorem close : OpenFrom 1 ['\x7d'] where
  before := by
    intro p hp hne
    rcases List.prefix_cons_iff.mp hp with rfl | ⟨q, rfl, hq⟩
    · decide
    · exact absurd (by rw [List.prefix_nil.mp hq]) hne
  whole := .inr (by decide)

private theorem count_cons_eq (c : Char) (cs : List Char) (x : Char) :
    (c :: cs).count x = [c].count x + cs.count x := by
  rw [← List.count_append, List.singleton_append]

private theorem cons (hd : 0 < d) (he : e + [c].count '\x7d' = d + [c].count '\x7b')
    (h : OpenFrom e cs) : OpenFrom d (c :: cs) where
  before := by
    intro p hp hpne
    rcases List.prefix_cons_iff.mp hp with rfl | ⟨q, rfl, hq⟩
    · simpa using hd
    · have hlt := h.before q hq fun heq => hpne (by rw [heq])
      have hclose := count_cons_eq c q '\x7d'
      have hopen := count_cons_eq c q '\x7b'
      omega
  whole := by
    have hclose := count_cons_eq c cs '\x7d'
    have hopen := count_cons_eq c cs '\x7b'
    rcases h.whole with hw | ⟨hw, hl⟩
    · exact .inl (by omega)
    · refine .inr ⟨by omega, ?_⟩
      cases cs with
      | nil => cases hl
      | cons x cs => rwa [List.getLast?_cons_cons]

end OpenFrom

/-- What is cut off behind the brace that closes all: the rest is begun by the text, leaves a brace
open up to its last character, and is all of the text or ends with that brace. -/
private theorem balanced_spec {d : Nat} (hd : 0 < d) (cs : List Char) : balanced d cs <+: cs ∧
    OpenFrom d (balanced d cs) ∧ (balanced d cs = cs ∨ (balanced d cs).getLast? = some '\x7d') := by
  induction cs generalizing d with
  | nil => exact ⟨List.nil_prefix, .nil hd, .inl rfl⟩
  | cons c cs ih =>
    have hstep {e : Nat} (he : 0 < e) (hc : e + [c].count '\x7d' = d + [c].count '\x7b')
        (hb : balanced d (c :: cs) = c :: balanced e cs) : balanced d (c :: cs) <+: c :: cs ∧
          OpenFrom d (balanced d (c :: cs)) ∧ (balanced d (c :: cs) = c :: cs ∨
            (balanced d (c :: cs)).getLast? = some '\x7d') := by
      obtain ⟨hcut, hopen, hend⟩ := ih he
      rw [hb]
      refine ⟨List.cons_prefix_cons.mpr ⟨rfl, hcut⟩, hopen.cons hd hc, ?_⟩
      rcases hend with hend | hend
      · exact .inl (by rw [hend])
      · obtain ⟨x, rest, hx⟩ := List.exists_cons_of_ne_nil (List.ne_nil_of_mem (List.mem_of_getLast? hend))
        rw [hx] at hend ⊢
        exact .inr (by rwa [List.getLast?_cons_cons])
    by_cases hopen : c = '\x7b'
    · subst hopen
      exact hstep (Nat.succ_pos d) rfl (balanced_open d cs)
    by_cases hclose : c = '\x7d'
    · subst hclose
      obtain _ | _ | e := d
      · cases hd
      · exact ⟨⟨cs, rfl⟩, .close, .inr rfl⟩
      · exact hstep (Nat.succ_pos e) rfl (balanced_close e cs)
    · exact hstep hd (by simp [hopen, hclose]) (balanced_other hopen hclose d cs)

private theorem compact_tidy (s : String) : Compact (tidy s).toList := by
  rw [tidy, join_words]
  exact .intercalate fun w hw => ⟨(mem_wordChars hw).1, (mem_wordChars hw).2.1⟩

private theorem startsWith_brace {s : String} :
    startsWith s "\x7b" = true ↔ ∃ cs, s.toList = '\x7b' :: cs := by
  rw [startsWith, List.isPrefixOf_iff_prefix]
  constructor
  · rintro ⟨cs, hcs⟩
    exact ⟨cs, hcs.symm⟩
  · rintro ⟨cs, hcs⟩
    exact ⟨cs, hcs.symm⟩

/-- The first object of a text begins the text, and the text is as compact with nothing behind it. -/
private theorem firstObject_spec {s : String} (h : Compact s.toList) :
    (firstObject s).toList <+: s.toList ∧ Compact (firstObject s).toList ∧
      (startsWith (firstObject s) "\x7b" = true →
        ∃ cs, (firstObject s).toList = '\x7b' :: cs ∧ OpenFrom 1 cs) := by
  unfold firstObject
  split
  · rename_i hbrace
    obtain ⟨cs, hcs⟩ := startsWith_brace.mp hbrace
    obtain ⟨hcut, hopen, hend⟩ := balanced_spec (d := 1) Nat.one_pos cs
    have hobject : balanced 0 s.toList = '\x7b' :: balanced (1 : Nat) cs := by
      rw [hcs]
      exact balanced_open 0 cs
    have hbegin : '\x7b' :: balanced (1 : Nat) cs <+: s.toList := by
      rw [hcs]
      exact List.cons_prefix_cons.mpr ⟨rfl, hcut⟩
    rw [String.toList_ofList, hobject]
    refine ⟨hbegin, ?_, fun _ => ⟨_, rfl, hopen⟩⟩
    rcases hend with hall | hlast
    · rw [hall, ← hcs]
      exact h
    · refine h.of_prefix hbegin fun c hc => ?_
      rw [List.getLast?_cons, hlast] at hc
      obtain rfl : '\x7d' = c := Option.some.inj hc
      decide
  · rename_i hbrace
    exact ⟨List.prefix_refl _, h, fun hb => absurd hb hbrace⟩

/-- The data taken from an answer have no blanks at their ends and only single spaces between their
words. They hold no fence, so no fenced block is looked into when they are read. If they begin with
an opening brace, more braces are open than closed up to their last character, and at their end
either all are closed, with a brace at the very end, or some are still open. -/
theorem payload_shape (reply : String) :
    Compact (payload reply).toList ∧
    contains (payload reply) "```" = false ∧ fenced? (payload reply) = none ∧
    (startsWith (payload reply) "\x7b" = true →
      (∀ p, p <+: (payload reply).toList → p ≠ [] → p ≠ (payload reply).toList →
        p.count '\x7d' < p.count '\x7b') ∧
      ((payload reply).toList.count '\x7d' = (payload reply).toList.count '\x7b' ∧
          endsWith (payload reply) "\x7d" = true ∨
        (payload reply).toList.count '\x7d' < (payload reply).toList.count '\x7b')) := by
  obtain ⟨hcut, hcompact, hobject⟩ := firstObject_spec (compact_tidy (dataPart reply))
  have hfence : ¬ ['`', '`', '`'] <:+: (firstObject (tidy (dataPart reply))).toList :=
    fun hin => no_fence_tidy (no_fence_dataPart reply) (hin.trans hcut.isInfix)
  rw [payload, hcompact.trim_eq]
  generalize firstObject (tidy (dataPart reply)) = data at *
  refine ⟨hcompact, ?_, fenced_eq_none hfence, fun hbrace => ?_⟩
  · rw [← Bool.not_eq_true, contains_iff]
    exact hfence
  obtain ⟨cs, hcs, hopen⟩ := hobject hbrace
  rw [hcs]
  constructor
  · intro p hp hne hproper
    rcases List.prefix_cons_iff.mp hp with rfl | ⟨q, rfl, hq⟩
    · exact absurd rfl hne
    · have hlt := hopen.before q hq fun heq => hproper (by rw [heq])
      rw [List.count_cons_of_ne (by decide), List.count_cons_self]
      omega
  · rw [List.count_cons_of_ne (by decide), List.count_cons_self]
    rcases hopen.whole with hlt | ⟨heq, hlast⟩
    · exact .inr (by omega)
    · refine .inl ⟨by omega, ?_⟩
      obtain ⟨init, hinit⟩ := List.getLast?_eq_some_iff.mp hlast
      rw [endsWith, List.isSuffixOf_iff_suffix, hcs, hinit]
      exact ⟨'\x7b' :: init, rfl⟩

/-- A fenced object with an empty one in it and a brace too many behind it. -/
theorem fenced_object_shape :
    let data := payload "So:\n```json\n\x7b\"a\":  \x7b\x7d,\n\x7d \x7d\n```"
    startsWith data "\x7b" = true ∧ Compact data.toList ∧
      ∀ p, p <+: data.toList → p ≠ [] → p ≠ data.toList → p.count '\x7d' < p.count '\x7b' := by
  intro data
  have hbrace : startsWith data "\x7b" = true := by decide +kernel
  exact ⟨hbrace, (payload_shape _).1, ((payload_shape _).2.2.2 hbrace).1⟩

end Mender.Answer
