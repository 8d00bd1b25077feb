import Mender.Proofs.JsonWeight
import Mender.Proofs.Text
import Mender.Proofs.Tidy

/-! What is left of a written replacement as the data part of an answer: the text made tidy and cut
behind the brace that closes as many braces as are open, strings or not. -/
namespace Mender.Answer
open Text Json Relation
variable {o n t a b x y : List Char} {s : String} {d : Nat}

def loosePieces : List String := [",\x7d", ", \x7d", ",]", ", ]", "\x7d\x7b", "\x7d \x7b", "  "]

def Tidy (s : String) : Prop := ∀ p ∈ loosePieces, contains s p = false

instance (s : String) : Decidable (Tidy s) :=
  inferInstanceAs (Decidable (∀ p ∈ loosePieces, contains s p = false))

/-- From its start on, no part of a text closes more braces than it opens. -/
def Nested (s : String) : Prop :=
  ∀ p, p <+: s.toList → p.count '\x7d' ≤ p.count '\x7b'

private theorem infix_append_cons {p X Y : List Char} {q : Char} (hq : q ∉ p) :
    p <:+: X ++ q :: Y ↔ p <:+: X ∨ p <:+: Y := by
  constructor
  · rintro ⟨s, t, h⟩
    rw [List.append_assoc] at h
    rcases List.append_eq_append_iff.mp h with ⟨as, rfl, ha⟩ | ⟨bs, rfl, hb⟩
    · rcases List.append_eq_append_iff.mp ha with ⟨cs, rfl, -⟩ | ⟨cs, rfl, hc⟩
      · exact .inl ⟨s, cs, by simp⟩
      · cases cs with
        | nil => exact .inl ⟨s, [], by simp⟩
        | cons d cs =>
          obtain ⟨rfl, -⟩ := List.cons.inj hc
          exact absurd (List.mem_append_right as List.mem_cons_self) hq
    · cases bs with
      | nil =>
        cases p with
        | nil => exact .inl List.nil_infix
        | cons d p => exact absurd ((List.cons.inj hb).1 ▸ List.mem_cons_self) hq
      | cons d bs =>
        obtain ⟨rfl, rfl⟩ := List.cons.inj hb
        exact .inr ⟨bs, t, by simp⟩
  · rintro (h | h)
    · exact h.trans (List.prefix_append ..).isInfix
    · exact h.trans ((List.suffix_cons ..).trans (List.suffix_append ..)).isInfix

/-- A piece made of marks occurs in a written replacement where it does in one of the texts, if it
does not occur in what stands around them. -/
theorem infix_frame {p : List Char} (hp : ∀ c ∈ p, Mark c)
    (h1 : ¬ p <:+: ['\x7b', '"', 'o', 'l', 'd', '"', ':', ' '])
    (h2 : ¬ p <:+: [',', ' ', '"', 'n', 'e', 'w', '"', ':', ' ']) (h3 : ¬ p <:+: ['\x7d'])
    :
    p <:+: frame (escaped a) (escaped b) ↔ p <:+: a ∨ p <:+: b := by
  have hq : '"' ∉ p := fun h => (hp _ h).1.2.2.1 rfl
  have hf : frame (escaped a) (escaped b) = ['\x7b', '"', 'o', 'l', 'd', '"', ':', ' '] ++ '"' ::
      (escaped a ++ '"' :: ([',', ' ', '"', 'n', 'e', 'w', '"', ':', ' '] ++ '"' ::
        (escaped b ++ '"' :: ['\x7d']))) := rfl
  rw [hf, infix_append_cons hq, infix_append_cons hq, infix_append_cons hq, infix_append_cons hq,
    infix_escaped hp, infix_escaped hp]
  simp [h1, h2, h3]

private theorem gapFree_iff {a b : Char} (hx : ∀ c ∈ x, Printable c)
    (hd : ¬ [' ', ' '] <:+: x) : GapFree a b x ↔ ¬ [a, b] <:+: x ∧ ¬ [a, ' ', b] <:+: x := by
  constructor
  · exact fun h => ⟨h [] (by simp), h [' '] (by simp; rfl)⟩
  · rintro ⟨h0, h1⟩ w hw hi
    have hp (c : Char) (hc : c ∈ w) : Printable c := hx c (hi.subset (by simp [hc]))
    rw [eq_replicate_of_blank hp hw] at hi
    generalize w.length = n at hi
    match n with
    | 0 => exact h0 hi
    | 1 => exact h1 hi
    | n + 2 => exact hd (.trans ⟨[a], List.replicate n ' ' ++ [b], rfl⟩ hi)

private theorem isTidy_iff (hx : ∀ c ∈ x, Printable c) :
    IsTidy x ↔ ∀ p ∈ loosePieces, ¬ p.toList <:+: x := by
  simp only [IsTidy, loosePieces, List.forall_mem_cons, List.not_mem_nil, false_imp_iff, forall_const,
    and_true]
  constructor
  · rintro ⟨g1, g2, g3, hd⟩
    obtain ⟨h1, h2⟩ := (gapFree_iff hx hd).mp g1
    obtain ⟨h3, h4⟩ := (gapFree_iff hx hd).mp g2
    obtain ⟨h5, h6⟩ := (gapFree_iff hx hd).mp g3
    exact ⟨h1, h2, h3, h4, h5, h6, hd⟩
  · rintro ⟨h1, h2, h3, h4, h5, h6, hd⟩
    exact ⟨(gapFree_iff hx hd).mpr ⟨h1, h2⟩, (gapFree_iff hx hd).mpr ⟨h3, h4⟩,
      (gapFree_iff hx hd).mpr ⟨h5, h6⟩, hd⟩

theorem printable_frame : ∀ c ∈ frame (escaped a) (escaped b), Printable c := by
  have h1 : ∀ c ∈ opening, Printable c := forall_mem_of_all (by decide)
  have h2 : ∀ c ∈ middle, Printable c := forall_mem_of_all (by decide)
  have h3 : ∀ c ∈ closing, Printable c := forall_mem_of_all (by decide)
  simp only [frame, List.forall_mem_append]
  exact ⟨h1, fun c => printable_escaped, h2, fun c => printable_escaped, h3⟩

def unclosed (old new : List Char) : List Char := opening ++ (old ++ (middle ++ (new ++ ['"'])))

theorem frame_eq_unclosed (o n : List Char) : frame o n = unclosed o n ++ ['\x7d'] := by
  simp [frame, unclosed, closing]

theorem printable_unclosed : ∀ c ∈ unclosed (escaped a) (escaped b), Printable c := by
  intro c hc
  apply printable_frame (a := a) (b := b)
  rw [frame_eq_unclosed]
  exact List.mem_append_left _ hc

theorem isTidy_frame (old new : String) :
    IsTidy (frame (escaped old.toList) (escaped new.toList)) ↔ Tidy old ∧ Tidy new := by
  have hm : ∀ p ∈ loosePieces, (∀ c ∈ p.toList, Mark c) ∧
      ¬ p.toList <:+: ['\x7b', '"', 'o', 'l', 'd', '"', ':', ' '] ∧
      ¬ p.toList <:+: [',', ' ', '"', 'n', 'e', 'w', '"', ':', ' '] ∧ ¬ p.toList <:+: ['\x7d'] := by
    simp only [loosePieces, List.forall_mem_cons]
    refine ⟨?_, ?_, ?_, ?_, ?_, ?_, ?_, fun _ h => absurd h List.not_mem_nil⟩ <;>
      exact ⟨forall_mem_of_all (by decide), by decide, by decide, by decide⟩
  have hc (s p : String) : contains s p = false ↔ ¬ p.toList <:+: s.toList := by
    rw [← contains_iff, Bool.not_eq_true]
  rw [isTidy_iff printable_frame]
  simp only [Tidy, hc, ← forall_and]
  refine forall₂_congr fun p hp => ?_
  obtain ⟨h0, h1, h2, h3⟩ := hm p hp
  rw [infix_frame h0 h1 h2 h3, not_or]

private theorem opening_inv (h : Tidies (opening ++ x) y) : ∃ z, y = opening ++ z ∧ Tidies x z := by
  obtain ⟨u, rfl, hu⟩ := Tidies.append_inv (w := ['\x7b', '"', 'o', 'l', 'd', '"', ':'])
    (x := ' ' :: '"' :: x) (forall_mem_of_all (by decide)) h
  obtain ⟨v, rfl, hv⟩ := hu.space_inv (by decide)
  obtain ⟨z, rfl, hz⟩ := hv.cons_inv (by decide) (by decide) (by decide)
  exact ⟨z, rfl, hz⟩

private theorem middle_inv (h : Tidies (middle.tail ++ x) y) :
    ∃ z, y = middle.tail ++ z ∧ Tidies x z := by
  obtain ⟨t, rfl, ht⟩ : ∃ t, y = ',' :: t ∧ Tidies (' ' :: '"' :: ('n' :: 'e' :: 'w' :: '"' :: ':' ::
      ' ' :: '"' :: x)) t := by
    rcases h.cases_cons with h | ⟨n, b, v, z, -, hb, hx, -, -⟩ | ⟨n, v, z, hc, -⟩ | ⟨n, v, z, hc, -⟩
    · exact h
    · match n with
      | 0 => exact absurd (List.cons.inj hx).1 (by rcases hb with rfl | rfl <;> decide)
      | 1 => exact absurd (List.cons.inj (List.cons.inj hx).2).1 (by rcases hb with rfl | rfl <;> decide)
      | n + 2 => exact absurd (List.cons.inj (List.cons.inj hx).2).1 (by decide)
    · exact absurd hc (by decide)
    · exact absurd hc (by decide)
  obtain ⟨u, rfl, hu⟩ := ht.space_inv (by decide)
  obtain ⟨v, rfl, hv⟩ := Tidies.append_inv (w := ['"', 'n', 'e', 'w', '"', ':'])
    (x := ' ' :: '"' :: x) (forall_mem_of_all (by decide)) hu
  obtain ⟨w, rfl, hw⟩ := hv.space_inv (by decide)
  obtain ⟨z, rfl, hz⟩ := hw.cons_inv (by decide) (by decide) (by decide)
  exact ⟨z, rfl, hz⟩

private theorem frame_inv (h : Tidies (frame (escaped a) (escaped b)) y) :
    ∃ o n, y = frame (escaped o) (escaped n) ∧ Tidies a o ∧ Tidies b n := by
  obtain ⟨u, rfl, hu⟩ := opening_inv h
  obtain ⟨o, v, rfl, ho, hv⟩ := Tidies.escaped_inv (r := middle.tail ++ (escaped b ++ closing)) hu
  obtain ⟨w, rfl, hw⟩ := middle_inv hv
  obtain ⟨n, z, rfl, hn, hz⟩ := Tidies.escaped_inv (r := ['\x7d']) hw
  refine ⟨o, n, ?_, ho, hn⟩
  have hz : z = ['\x7d'] := by
    rcases hz.cases_cons with ⟨t, rfl, ht⟩ | ⟨_, _, _, _, hc, _⟩ | ⟨_, _, _, _, hx, _⟩ |
      ⟨_, _, _, hc, _⟩
    · rw [ht.nil_iff.mpr rfl]
    · exact absurd hc (by decide)
    · simp at hx
    · exact absurd hc (by decide)
  rw [hz]
  rfl

theorem Tidied.frame_inv (h : Tidied (frame (escaped a) (escaped b)) y) :
    ∃ o n, y = frame (escaped o) (escaped n) ∧ Tidied a o ∧ Tidied b n := by
  induction h with
  | refl => exact ⟨a, b, rfl, .refl, .refl⟩
  | tail _ hstep ih =>
    obtain ⟨o, n, rfl, ho, hn⟩ := ih
    obtain ⟨o', n', rfl, ho', hn'⟩ := Answer.frame_inv hstep
    exact ⟨o', n', rfl, ho.tail ho', hn.tail hn'⟩

theorem Tidied.weight_eq (h : Tidied x y) : weight y = weight x := by
  have hf := congrArg List.length (h.filter_eq isSolid rfl rfl)
  simpa only [weight, List.countP_eq_length_filter] using hf

theorem dataPart_eq_self {r t : List Char} (hf : ¬ ['`', '`', '`'] <:+: s.toList)
    (h1 : s.toList = '\x7b' :: r) (h2 : s.toList = t ++ ['\x7d']) : dataPart s = s := by
  have hj : contains s "```json" = false := by
    rw [← Bool.not_eq_true, contains_iff]
    exact fun h => hf (.trans ⟨[], ['j', 's', 'o', 'n'], rfl⟩ h)
  have hp : contains s "```" = false := by
    rw [← Bool.not_eq_true, contains_iff]
    exact hf
  have hs : find? s "\x7b" = some 0 := by
    rw [find?, h1]
    rfl
  have he : findLast? s "\x7d" = some (s.toList.length - 1) := by
    rw [findLast?, h2]
    simp [findChars, Text.length, h2]
  have hl : s.toList.length - 1 + 1 = s.toList.length := by simp [h2]
  simp [dataPart, hj, hp, hs, he, hl, between]

theorem trim_eq_self {c d : Char} {r t : List Char} (h1 : s.toList = c :: r)
    (h2 : s.toList = t ++ [d]) (hc : isBlank c = false) (hd : isBlank d = false) : trim s = s := by
  have hs : trimStart s = s := by
    rw [trimStart, h1, List.dropWhile_cons_of_neg (by simp [hc]), ← h1, String.ofList_toList]
  rw [trim, hs, trimEnd, dropEndWhile, h2, List.reverse_append]
  simp only [List.reverse_cons, List.reverse_nil, List.nil_append, List.cons_append]
  rw [List.dropWhile_cons_of_neg (by simp [hd])]
  simp [← h2]

/-- With `d` braces open before, no part of a text from its start on closes more than are open. -/
def Keeps : Nat → List Char → Prop
  | _, [] => True
  | d, c :: cs =>
    if c = '\x7b' then Keeps (d + 1) cs
    else if c = '\x7d' then 0 < d ∧ Keeps (d - 1) cs
    else Keeps d cs

theorem keeps_iff {cs : List Char} :
    Keeps d cs ↔ ∀ p, p <+: cs → p.count '\x7d' ≤ d + p.count '\x7b' := by
  induction cs generalizing d with
  | nil => simp [Keeps, List.prefix_nil]
  | cons c cs ih =>
    have hp (P : List Char → Prop) : (∀ p, p <+: c :: cs → P p) ↔
        P [] ∧ ∀ q, q <+: cs → P (c :: q) := by
      simp only [List.prefix_cons_iff, or_imp, forall_and, forall_eq, forall_exists_index, and_imp]
      exact and_congr_right fun _ => ⟨fun h q hq => h _ q rfl hq, fun h p q hp hq => hp ▸ h q hq⟩
    rw [hp, Keeps]
    by_cases h1 : c = '\x7b'
    · subst h1
      simp only [if_true, ih, List.count_cons, List.count_nil]
      refine ⟨fun h => ⟨by omega, fun q hq => ?_⟩, fun h q hq => ?_⟩
      · have := h q hq
        simp
        omega
      · have := h.2 q hq
        simp at this
        omega
    · by_cases h2 : c = '\x7d'
      · subst h2
        simp only [h1, if_true, if_false, ih]
        refine ⟨fun h => ⟨by simp, fun q hq => ?_⟩, fun h => ⟨?_, fun q hq => ?_⟩⟩
        · have := h.2 q hq
          simp
          omega
        · have := h.2 [] List.nil_prefix
          simp at this
          omega
        · have := h.2 q hq
          simp at this
          omega
      · simp [h1, h2, ih]

instance decidableKeeps : (d : Nat) → (cs : List Char) → Decidable (Keeps d cs)
  | _, [] => .isTrue trivial
  | d, c :: cs =>
    have := decidableKeeps (d + 1) cs
    have := decidableKeeps (d - 1) cs
    have := decidableKeeps d cs
    inferInstanceAs (Decidable (if c = '\x7b' then Keeps (d + 1) cs
      else if c = '\x7d' then 0 < d ∧ Keeps (d - 1) cs else Keeps d cs))

theorem nested_iff : Nested s ↔ Keeps 0 s.toList := by
  simp [Nested, keeps_iff]

instance (s : String) : Decidable (Nested s) := decidable_of_iff _ nested_iff.symm

theorem keeps_filter (cs : List Char) :
    Keeps d (cs.filter fun c => c == '\x7b' || c == '\x7d') ↔ Keeps d cs := by
  induction cs generalizing d with
  | nil => rfl
  | cons c cs ih =>
    by_cases h1 : c = '\x7b'
    · subst h1
      exact ih
    · by_cases h2 : c = '\x7d'
      · subst h2
        exact and_congr_right fun _ => ih
      · simp [h1, h2, Keeps, ih]

theorem balanced_open (d : Int) (cs : List Char) :
    balanced d ('\x7b' :: cs) = '\x7b' :: balanced (d + 1) cs := by
  rw [balanced, if_pos (by decide)]

theorem balanced_close (d : Nat) (cs : List Char) :
    balanced ((d + 1 : Nat) + 1) ('\x7d' :: cs) = '\x7d' :: balanced (d + 1) cs := by
  have h : ((d + 1 : Nat) : Int) + 1 - 1 = d + 1 := by omega
  rw [balanced, if_neg (by decide), if_pos (by decide), h, if_neg (by omega)]

theorem balanced_other {c : Char} (h1 : c ≠ '\x7b') (h2 : c ≠ '\x7d') (d : Int) (cs : List Char) :
    balanced d (c :: cs) = c :: balanced d cs := by
  rw [balanced, if_neg (by simpa using h1), if_neg (by simpa using h2)]

theorem balanced_of_keeps {cs : List Char} (h : Keeps d cs) :
    balanced (d + 1) (cs ++ closing) = cs ++ closing := by
  induction cs generalizing d with
  | nil =>
    simp only [List.nil_append, closing, balanced]
    simp
  | cons c cs ih =>
    rw [Keeps] at h
    rw [List.cons_append]
    split at h
    · rename_i hc
      rw [hc, balanced_open]
      exact congrArg _ (ih h)
    · split at h
      · rename_i hc
        obtain ⟨d, rfl⟩ := Nat.exists_eq_succ_of_ne_zero (Nat.ne_of_gt h.1)
        rw [hc, balanced_close]
        exact congrArg _ (ih h.2)
      · rename_i h1 h2
        rw [balanced_other h1 h2, ih h]

private theorem balanced_of_not_keeps {cs t : List Char} (h : ¬ Keeps d cs) :
    ∃ q r, cs = q ++ '\x7d' :: r ∧ balanced (d + 1) (cs ++ t) = q ++ ['\x7d'] := by
  induction cs generalizing d with
  | nil => exact absurd trivial h
  | cons c cs ih =>
    rw [Keeps] at h
    rw [List.cons_append]
    split at h
    · rename_i hc
      obtain ⟨q, r, rfl, hb⟩ := ih h
      refine ⟨'\x7b' :: q, r, by rw [hc]; rfl, ?_⟩
      rw [hc, balanced_open]
      exact congrArg _ hb
    · split at h
      · rename_i hc
        rw [hc]
        cases d with
        | zero => exact ⟨[], cs, rfl, by simp [balanced]⟩
        | succ d =>
          obtain ⟨q, r, rfl, hb⟩ := ih fun hk => h ⟨Nat.succ_pos d, hk⟩
          exact ⟨'\x7d' :: q, r, rfl, by rw [balanced_close]; exact congrArg _ hb⟩
      · rename_i h1 h2
        obtain ⟨q, r, rfl, hb⟩ := ih h
        exact ⟨c :: q, r, rfl, by rw [balanced_other h1 h2, hb]; rfl⟩

/-- A written replacement that is cut behind a brace in its old or its new text. -/
inductive Cut (o n : List Char) : List Char → Prop where
  | old {q r : List Char} (h : o = q ++ '\x7d' :: r) : Cut o n (opening ++ (escaped q ++ ['\x7d']))
  | new {q r : List Char} (h : n = q ++ '\x7d' :: r) :
      Cut o n (opening ++ (escaped o ++ (middle ++ (escaped q ++ ['\x7d']))))

theorem append_cons_eq_append {A B X Y : List Char} {c : Char} (h : A ++ c :: B = X ++ Y) :
    (∃ B', X = A ++ c :: B' ∧ B = B' ++ Y) ∨ ∃ A', A = X ++ A' ∧ Y = A' ++ c :: B := by
  rcases List.append_eq_append_iff.mp h with ⟨as, rfl, ha⟩ | ⟨bs, rfl, hb⟩
  · cases as with
    | nil => exact .inr ⟨[], by simp, ha.symm⟩
    | cons d as =>
      obtain ⟨rfl, hB⟩ := List.cons.inj ha
      exact .inl ⟨as, rfl, hB⟩
  · exact .inr ⟨bs, rfl, hb⟩

/-- A written replacement is kept as a whole if the braces of its two texts, one after the other,
are nested, and cut short otherwise. -/
theorem balanced_frame (o n : List Char) :
    (Keeps 0 (o ++ n) ∧
      balanced 0 (frame (escaped o) (escaped n)) = frame (escaped o) (escaped n)) ∨
    (¬ Keeps 0 (o ++ n) ∧ Cut o n (balanced 0 (frame (escaped o) (escaped n)))) := by
  have hf : frame (escaped o) (escaped n) =
      '\x7b' :: ((opening.tail ++ (escaped o ++ (middle ++ escaped n))) ++ closing) := by
    simp [frame, opening]
  have hk : Keeps 0 (opening.tail ++ (escaped o ++ (middle ++ escaped n))) ↔ Keeps 0 (o ++ n) := by
    have hm (c : Char) (h : (c == '\x7b' || c == '\x7d') = true) : Mark c := by
      simp only [Bool.or_eq_true, beq_iff_eq] at h
      rcases h with rfl | rfl <;> decide
    rw [← keeps_filter, ← keeps_filter (o ++ n)]
    simp only [List.filter_append, filter_escaped hm]
    rfl
  rw [hf, balanced_open]
  by_cases h : Keeps 0 (o ++ n)
  · exact .inl ⟨h, congrArg _ (balanced_of_keeps (hk.mpr h))⟩
  · obtain ⟨q, r, he, hb⟩ := balanced_of_not_keeps (t := closing) (mt hk.mp h)
    refine .inr ⟨h, ?_⟩
    rw [show (0 : Int) + 1 = (0 : Nat) + 1 from rfl, hb]
    have hno {w : List Char} (hw : '\x7d' ∉ w) {A B : List Char} (hw' : w = A ++ '\x7d' :: B) :
        False := hw (hw' ▸ List.mem_append_right A List.mem_cons_self)
    rcases append_cons_eq_append he.symm with ⟨_, ho, -⟩ | ⟨q1, rfl, h1⟩
    · exact (hno (by decide) ho).elim
    rcases append_cons_eq_append h1.symm with ⟨_, ho, -⟩ | ⟨q2, rfl, h2⟩
    · obtain ⟨a, b, hab, rfl, -⟩ := escaped_split (by decide) ho
      exact .old hab
    rcases append_cons_eq_append h2.symm with ⟨_, hm, -⟩ | ⟨q3, rfl, h3⟩
    · exact (hno (by decide) hm).elim
    obtain ⟨a, b, hab, rfl, -⟩ := escaped_split (by decide) h3
    have := Cut.new (o := o) hab
    simpa [opening] using this

private theorem frame_injective
    (h : frame (escaped o) (escaped n) = frame (escaped a) (escaped b)) : o = a ∧ n = b := by
  have he := (parse_frame o n).symm.trans ((congrArg (fun x => parse (String.ofList x)) h).trans
    (parse_frame a b))
  simpa [Datum.replacement, String.ofList_inj] using he

private theorem Cut.ends (h : Cut o n t) : ∃ r w, t = '\x7b' :: r ∧ t = w ++ ['\x7d'] := by
  cases h with
  | old h => exact ⟨_, _, rfl, (List.append_assoc ..).symm⟩
  | @new q r h =>
    exact ⟨_, opening ++ (escaped o ++ (middle ++ escaped q)), rfl, by simp⟩

theorem Cut.rest (h : Cut o n t) : ∃ z, frame (escaped o) (escaped n) = t ++ z ∧ 2 ≤ weight z := by
  have hc : weight closing = 2 := rfl
  have hs (q r : List Char) : escaped (q ++ '\x7d' :: r) = escaped q ++ '\x7d' :: escaped r := by
    rw [escaped_append, Plain.escaped_cons (by decide)]
  cases h with
  | @old q r h =>
    refine ⟨escaped r ++ (middle ++ (escaped n ++ closing)), ?_, ?_⟩
    · rw [h, hs]
      simp [frame]
    · simp only [weight_append]
      omega
  | @new q r h =>
    refine ⟨escaped r ++ closing, ?_, ?_⟩
    · rw [h, hs]
      simp [frame]
    · rw [weight_append]
      omega

theorem Cut.printable (h : Cut o n t) : ∀ c ∈ t, Printable c := by
  obtain ⟨z, hz, -⟩ := h.rest
  exact fun c hc => printable_frame c (hz ▸ List.mem_append_left z hc)

private theorem frame_ends (x y : List Char) :
    ∃ r w, frame x y = '\x7b' :: r ∧ frame x y = w ++ ['\x7d'] :=
  ⟨_, opening ++ (x ++ (middle ++ (y ++ ['"']))), rfl, by simp [frame, closing]⟩

theorem no_fence_frame {old new : String} (ho : contains old "```" = false)
    (hn : contains new "```" = false) :
    ¬ ['`', '`', '`'] <:+: frame (escaped old.toList) (escaped new.toList) := by
  rw [infix_frame (forall_mem_of_all (by decide)) (by decide) (by decide) (by decide), not_or]
  simp only [← Bool.not_eq_true, contains_iff] at ho hn
  exact ⟨ho, hn⟩

/-- The data part of an answer that is a written replacement: its two texts made tidy, and if their
braces are not nested, only the beginning. -/
theorem payload_render {old new : String} (ho : contains old "```" = false)
    (hn : contains new "```" = false) : ∃ o n, Tidied new.toList n ∧
      Tidied (frame (escaped old.toList) (escaped new.toList)) (frame (escaped o) (escaped n)) ∧
      ((o = old.toList ∧ n = new.toList) ↔ Tidy old ∧ Tidy new) ∧
      ((Keeps 0 (o ++ n) ∧ (payload (render (.replacement old new))).toList =
          frame (escaped o) (escaped n)) ∨
        (¬ Keeps 0 (o ++ n) ∧ Cut o n (payload (render (.replacement old new))).toList)) := by
  generalize hs : render (.replacement old new) = s
  have hs : s.toList = frame (escaped old.toList) (escaped new.toList) := by
    rw [← hs, render_replacement]
  obtain ⟨r, w, h1, h2⟩ := frame_ends (escaped old.toList) (escaped new.toList)
  have hfence : ¬ ['`', '`', '`'] <:+: s.toList := hs ▸ no_fence_frame ho hn
  have hp : ∀ c ∈ s.toList, Printable c := by
    rw [hs]
    exact printable_frame
  obtain ⟨ht, he⟩ := tidy_spec hp (by rw [hs, h1]; simp) (by rw [hs, h2]; simp)
  rw [hs] at ht he
  obtain ⟨o, n, hon, -, htn⟩ := ht.frame_inv
  refine ⟨o, n, htn, hon ▸ ht, ?_, ?_⟩
  · rw [← isTidy_frame, ← he, hon]
    exact ⟨fun h => by rw [h.1, h.2], frame_injective⟩
  have hpay : payload s = trim (String.ofList (balanced 0 (frame (escaped o) (escaped n)))) := by
    rw [payload, dataPart_eq_self hfence (hs.trans h1) (hs.trans h2), firstObject, hon, if_pos]
    rw [startsWith, hon]
    rfl
  have htrim {t r w : List Char} (h1 : t = '\x7b' :: r) (h2 : t = w ++ ['\x7d']) :
      (trim (String.ofList t)).toList = t := by
    rw [trim_eq_self (String.toList_ofList.trans h1) (String.toList_ofList.trans h2) rfl rfl,
      String.toList_ofList]
  rw [hpay]
  rcases balanced_frame o n with ⟨hk, hb⟩ | ⟨hk, hc⟩
  · obtain ⟨r, w, h1, h2⟩ := frame_ends (escaped o) (escaped n)
    exact .inl ⟨hk, by rw [hb, htrim h1 h2]⟩
  · obtain ⟨r, w, h1, h2⟩ := hc.ends
    exact .inr ⟨hk, by rwa [htrim h1 h2]⟩

end Mender.Answer
