import Mender.Datum.Literal
import Mender.Proofs.Payload

/-! A written replacement that is cut inside one of its texts is no literal: the string that is open
at the cut never ends. Nor is one that lacks its closing brace. -/
namespace Mender.Literal
open Text Json Answer
variable {named : String → Option Char} {rest : List Char}

private theorem body_plain {c : Char} (h1 : c ≠ '"') (h2 : c ≠ '\\') (h3 : c ≠ '\n')
    (cs : List Char) :
    body '"' false (c :: cs) = (body '"' false cs).map fun (b, rest) => (c :: b, rest) := by
  rw [body.eq_def]
  split
  · rename_i h
    cases h
  · rename_i h
    exact absurd (List.cons.inj h).1 h2
  · rename_i h
    obtain ⟨rfl, rfl⟩ := List.cons.inj h
    simp [h1, h2, h3]

theorem body_guarded {u : List Char} (hu : Guarded u) (r : List Char) :
    body '"' false (u ++ r) = (body '"' false r).map fun (b, rest) => (u ++ b, rest) := by
  induction hu with
  | nil => simp
  | cons h1 h2 h3 _ ih =>
    rw [List.cons_append, body_plain h1 h2 h3, ih, Option.map_map]
    rfl
  | pair c _ ih =>
    rw [List.cons_append, List.cons_append, body, ih, Option.map_map]
    rfl

private theorem quotedAt_eq (h : ∀ more, rest ≠ '"' :: '"' :: more) :
    quotedAt named false true ('"' :: rest) = (body '"' false rest).bind fun (chars, after) =>
      (unescape named true (chars.length + 1) chars).map fun ns =>
        (.ofCodes ns, after) := by
  rcases rest with _ | ⟨a, _ | ⟨b, more⟩⟩
  · rfl
  · simp only [quotedAt]
    cases body '"' false [a] <;> rfl
  · have hab : (a == '"' && b == '"') = false := by
      rw [Bool.eq_false_iff]
      intro hab
      simp only [Bool.and_eq_true, beq_iff_eq] at hab
      exact h more (by rw [hab.1, hab.2])
    simp only [quotedAt, hab, Bool.false_eq_true, if_false]
    cases body '"' false (a :: b :: more) <;> rfl

private theorem stringAt_quote (rest : List Char) :
    stringAt named ('"' :: rest) = quotedAt named false true ('"' :: rest) := by
  have hw : isNameChar '"' = false := by decide
  simp [stringAt, hw, stringPrefixes, lower]

theorem stringAt_closed (hq : ∀ r, rest ≠ '"' :: r) (x : List Char) :
    stringAt named ('"' :: (escaped x ++ '"' :: rest)) = none ∨
      ∃ d, stringAt named ('"' :: (escaped x ++ '"' :: rest)) = some (d, rest) := by
  have hb : body '"' false ('"' :: rest) = some ([], rest) := by rw [body.eq_def]; rfl
  rw [stringAt_quote, quotedAt_eq, body_guarded (guarded_escaped x), hb]
  · simp only [Option.map_some, List.append_nil, Option.bind_some]
    cases unescape named true ((escaped x).length + 1) (escaped x) with
    | none => exact .inl rfl
    | some ns => exact .inr ⟨_, rfl⟩
  · intro more he
    obtain ⟨-, hr⟩ := escaped_append_quote he
    exact hq more (List.cons.inj hr).2

theorem stringAt_open (q : List Char) : stringAt named ('"' :: (escaped q ++ ['\x7d'])) = none := by
  have hb : body '"' false ['\x7d'] = none := by decide
  rw [stringAt_quote, quotedAt_eq, body_guarded (guarded_escaped q), hb]
  · rfl
  · intro more he
    obtain ⟨-, hr⟩ := escaped_append_quote he
    simp at hr

/-- What can stand behind a string: nothing, or a character at which the blanks end and that no
string, sign or call begins with. -/
inductive Stop : List Char → Prop where
  | nil : Stop []
  | colon (r : List Char) : Stop (':' :: r)
  | comma (r : List Char) : Stop (',' :: r)

theorem skipBlanks_stop (hc : Stop rest) (inside : Bool) : skipBlanks inside rest = rest := by
  cases hc <;> simp [skipBlanks]

theorem skipBlanks_quote (inside : Bool) (r : List Char) :
    skipBlanks inside ('"' :: r) = '"' :: r := by
  simp [skipBlanks]

theorem skipBlanks_space (inside : Bool) (r : List Char) :
    skipBlanks inside (' ' :: r) = skipBlanks inside r := by
  simp [skipBlanks]

private theorem stringAt_stop (hc : Stop rest) : stringAt named rest = none := by
  cases hc with
  | nil => rfl
  | colon r =>
    have hw : isNameChar ':' = false := by decide
    simp [stringAt, hw]
  | comma r =>
    have hw : isNameChar ',' = false := by decide
    simp [stringAt, hw]

private theorem stringsAfter_stop (hc : Stop rest) (inside : Bool) (n : Nat)
    (d : Datum) : stringsAfter named inside n d rest = some (d, rest) := by
  cases n with
  | zero => rfl
  | succ n => simp only [stringsAfter, skipBlanks_stop hc, stringAt_stop hc]

private theorem readAtom_quote (fuel opened : Nat) (r : List Char) :
    readAtom named (fuel + 1) opened ('"' :: r) = (stringAt named ('"' :: r)).bind fun (d, rest) =>
      (stringsAfter named (0 < opened) ('"' :: r).length d rest).map fun (d, rest) =>
        (.value d, rest) := by
  have hw : isNameChar '"' = false := by decide
  simp [readAtom, beginsString, hw]

def Reads (f : Option (Expr × List Char)) (rest : List Char) : Prop :=
  f = none ∨ ∃ e, f = some (e, rest)

private theorem readAtom_closed (hc : Stop rest) (fuel opened : Nat) (x : List Char) :
    Reads (readAtom named fuel opened ('"' :: (escaped x ++ '"' :: rest))) rest := by
  cases fuel with
  | zero => exact .inl (by rw [readAtom])
  | succ fuel =>
    have hq : ∀ r, rest ≠ '"' :: r := by cases hc <;> simp
    rw [readAtom_quote]
    rcases stringAt_closed hq x with h | ⟨d, h⟩ <;> rw [h]
    · exact .inl rfl
    · simp only [Option.bind_some, stringsAfter_stop hc]
      exact .inr ⟨_, rfl⟩

private theorem readSigned_eq {c : Char} {opened : Nat} {cs : List Char} (fuel : Nat)
    (hs : skipBlanks (0 < opened) (c :: cs) = c :: cs) (hp : c ≠ '+') (hm : c ≠ '-') :
    readSigned named (fuel + 1) opened (c :: cs) = match readAtom named fuel opened (c :: cs) with
      | none => none
      | some (e, rest) =>
        match skipBlanks (0 < opened) rest with
        | '(' :: after =>
          match e, skipBlanks true after with
          | .setName, ')' :: after => some (.emptySet, after)
          | _, _ => none
        | _ => some (e, rest) := by
  simp only [readSigned, hs]
  split
  · rename_i h
    exact absurd (List.cons.inj h).1 hp
  · rename_i h
    exact absurd (List.cons.inj h).1 hm
  · rfl

theorem readSum_closed (hc : Stop rest) (fuel opened : Nat) (x : List Char) :
    Reads (readSum named fuel opened ('"' :: (escaped x ++ '"' :: rest))) rest := by
  have hs (fuel : Nat) :
      Reads (readSigned named fuel opened ('"' :: (escaped x ++ '"' :: rest))) rest := by
    cases fuel with
    | zero => exact .inl (by rw [readSigned])
    | succ fuel =>
      rw [readSigned_eq fuel (skipBlanks_quote ..) (by decide) (by decide)]
      rcases readAtom_closed hc fuel opened x with h | ⟨e, h⟩ <;> rw [h]
      · exact .inl rfl
      · simp only [skipBlanks_stop hc]
        cases hc <;> exact .inr ⟨e, rfl⟩
  cases fuel with
  | zero => exact .inl (by rw [readSum])
  | succ fuel =>
    rw [readSum]
    rcases hs fuel with h | ⟨e, h⟩ <;> rw [h]
    · exact .inl rfl
    · cases fuel with
      | zero => exact .inl (by simp only [readSumRest])
      | succ fuel =>
        simp only [readSumRest, skipBlanks_stop hc]
        cases hc <;> exact .inr ⟨e, rfl⟩

private theorem readSum_open (fuel opened : Nat) (q : List Char) :
    readSum named fuel opened ('"' :: (escaped q ++ ['\x7d'])) = none := by
  have ha (fuel : Nat) : readAtom named fuel opened ('"' :: (escaped q ++ ['\x7d'])) = none := by
    cases fuel with
    | zero => rw [readAtom]
    | succ fuel => rw [readAtom_quote, stringAt_open]; rfl
  have hs (fuel : Nat) : readSigned named fuel opened ('"' :: (escaped q ++ ['\x7d'])) = none := by
    cases fuel with
    | zero => rw [readSigned]
    | succ fuel => rw [readSigned_eq fuel (skipBlanks_quote ..) (by decide) (by decide), ha]
  cases fuel with
  | zero => rw [readSum]
  | succ fuel => rw [readSum, hs]

theorem readSum_space (fuel opened : Nat) (cs : List Char) :
    readSum named fuel opened (' ' :: cs) = readSum named fuel opened cs := by
  rcases fuel with _ | _ | fuel
  · simp only [readSum]
  · simp only [readSum, readSigned]
  · simp only [readSum, readSigned, skipBlanks_space]

private theorem readValue_open (fuel opened : Nat) (k : Expr) (acc : List (Expr × Expr))
    (q : List Char) :
    readValue named fuel opened k acc (' ' :: '"' :: (escaped q ++ ['\x7d'])) = none := by
  cases fuel with
  | zero => rw [readValue]
  | succ fuel => rw [readValue, readSum_space, readSum_open]

private theorem readEntries_quote (fuel opened : Nat) (acc : List (Expr × Expr)) (cs : List Char) :
    readEntries named (fuel + 1) opened acc (' ' :: '"' :: cs) =
      match readSum named fuel opened ('"' :: cs) with
      | none => none
      | some (k, rest) =>
        match skipBlanks true rest with
        | ':' :: rest => readValue named fuel opened k acc rest
        | _ => none := by
  simp only [readEntries, skipBlanks_space, skipBlanks_quote]
  rfl

private theorem readValue_ended (fuel opened : Nat) (k : Expr) (acc : List (Expr × Expr))
    (n : List Char) :
    readValue named fuel opened k acc (' ' :: '"' :: (escaped n ++ ['"'])) = none := by
  cases fuel with
  | zero => rw [readValue]
  | succ fuel =>
    rw [readValue, readSum_space]
    rcases readSum_closed .nil fuel opened n with h | ⟨e, h⟩ <;> rw [h]
    simp only [skipBlanks_stop .nil]

section Entries
variable {z : List Char} (hz : ∀ fuel opened k acc, readValue named fuel opened k acc z = none)
include hz

private theorem readEntries_new (fuel opened : Nat) (acc : List (Expr × Expr)) :
    readEntries named fuel opened acc (' ' :: '"' :: (escaped "new".toList ++ '"' :: ':' :: z)) =
      none := by
  cases fuel with
  | zero => rw [readEntries]
  | succ fuel =>
    rw [readEntries_quote]
    rcases readSum_closed (.colon z) fuel opened "new".toList with h | ⟨e, h⟩ <;> rw [h]
    simp only [skipBlanks_stop (.colon z), hz]

private theorem readValue_closed (fuel opened : Nat) (k : Expr) (acc : List (Expr × Expr))
    (o : List Char) : readValue named fuel opened k acc (' ' :: '"' :: (escaped o ++ '"' :: ',' ::
      ' ' :: '"' :: (escaped "new".toList ++ '"' :: ':' :: z))) = none := by
  cases fuel with
  | zero => rw [readValue]
  | succ fuel =>
    rw [readValue, readSum_space]
    rcases readSum_closed (.comma (' ' :: '"' :: (escaped "new".toList ++ '"' :: ':' :: z))) fuel
      opened o with h | ⟨e, h⟩ <;> rw [h]
    simp only [skipBlanks_stop (.comma _), readEntries_new hz]

private theorem readAtom_brace (fuel : Nat) :
    readAtom named fuel 0 ('\x7b' :: '"' :: (escaped "old".toList ++ '"' :: ':' :: z)) = none := by
  have hopen : ¬ maxOpen ≤ 0 := by decide
  cases fuel with
  | zero => rw [readAtom]
  | succ fuel =>
    simp only [readAtom, hopen, if_false, skipBlanks_quote, Nat.zero_add]
    split
    · rename_i he
      exact absurd (List.cons.inj he).1 (by decide)
    · have closed : Reads (readSum named fuel 1 _) (':' :: z) :=
        readSum_closed (.colon z) fuel 1 "old".toList
      rcases closed with h | ⟨e, h⟩
      · simp only [h]
      · simp only [h, skipBlanks_stop (.colon z), hz]

end Entries

variable {cs : List Char}

private theorem readSum_brace
    (h : ∀ fuel, readAtom named fuel 0 ('\x7b' :: cs) = none) (fuel : Nat) :
    readSum named fuel 0 ('\x7b' :: cs) = none := by
  have hb : skipBlanks (0 < 0) ('\x7b' :: cs) = '\x7b' :: cs := by simp [skipBlanks]
  have hs (fuel : Nat) : readSigned named fuel 0 ('\x7b' :: cs) = none := by
    cases fuel with
    | zero => rw [readSigned]
    | succ fuel => rw [readSigned_eq fuel hb (by decide) (by decide), h]
  cases fuel with
  | zero => rw [readSum]
  | succ fuel => rw [readSum, hs]

private theorem feeds_eq_self (h : '\r' ∉ cs) : feeds cs = cs := by
  induction cs with
  | nil => rfl
  | cons c cs ih =>
    obtain ⟨hc, hcs⟩ := not_or.mp (mt List.mem_cons.mpr h)
    rw [feeds.eq_def]
    split
    · rename_i h
      cases h
    · rename_i h
      exact absurd (List.cons.inj h).1.symm hc
    · rename_i h
      exact absurd (List.cons.inj h).1.symm hc
    · rename_i h
      obtain ⟨rfl, rfl⟩ := List.cons.inj h
      rw [ih hcs]

private theorem parse_of_readSum (hp : ∀ c ∈ '\x7b' :: cs, Printable c)
    (h : ∀ fuel, readSum named fuel 0 ('\x7b' :: cs) = none) :
    parse? (String.ofList ('\x7b' :: cs)) named = none := by
  have hr : '\r' ∉ '\x7b' :: cs := fun hm => absurd (hp _ hm) (by decide)
  have hz : ('\x7b' :: cs).contains '\x00' = false := by
    rw [← Bool.not_eq_true, List.contains_iff_mem]
    exact fun hm => absurd (hp _ hm) (by decide)
  have hb : skipBlankLines (('\x7b' :: cs).length + 1) ('\x7b' :: cs) = '\x7b' :: cs := by
    simp [skipBlankLines, skipBlanks]
  have ht (fuel : Nat) : readTop named (fuel + 1) [] ('\x7b' :: cs) = none := by
    rw [readTop, h]
  have hd : ('\x7b' :: cs).dropWhile (fun c => c == ' ' || c == '\t') = '\x7b' :: cs := rfl
  simp only [parse?, String.toList_ofList, hd, feeds_eq_self hr, hz, hb, ht]
  simp

theorem parse_cut {o n t : List Char} (h : Cut o n t) : parse? (String.ofList t) named = none := by
  have hp := h.printable
  have ho : escaped "old".toList = ['o', 'l', 'd'] := by decide
  have hn : escaped "new".toList = ['n', 'e', 'w'] := by decide
  cases h with
  | @old q r h =>
    refine parse_of_readSum hp fun fuel => readSum_brace (fun fuel => ?_) fuel
    have brace : readAtom named fuel 0 _ = none :=
      readAtom_brace (fun fuel opened k acc => readValue_open fuel opened k acc q) fuel
    rwa [ho] at brace
  | @new q r h =>
    refine parse_of_readSum hp fun fuel => readSum_brace (fun fuel => ?_) fuel
    have brace : readAtom named fuel 0 _ = none :=
      readAtom_brace (fun fuel opened k acc => readValue_closed
        (fun fuel opened k acc => readValue_open fuel opened k acc q) fuel opened k acc o) fuel
    rwa [ho, hn] at brace

theorem parse_unclosed (o n : List Char) :
    parse? (String.ofList (unclosed (escaped o) (escaped n))) named = none := by
  have ho : escaped "old".toList = ['o', 'l', 'd'] := by decide
  have hn : escaped "new".toList = ['n', 'e', 'w'] := by decide
  refine parse_of_readSum printable_unclosed fun fuel => readSum_brace (fun fuel => ?_) fuel
  have brace : readAtom named fuel 0 _ = none :=
    readAtom_brace (fun fuel opened k acc => readValue_closed
      (fun fuel opened k acc => readValue_ended fuel opened k acc n) fuel opened k acc o) fuel
  rwa [ho, hn] at brace

end Mender.Literal
