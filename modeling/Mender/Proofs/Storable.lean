import Mender.Proofs.Json

/-! Data that JSON has a form for. What is read from JSON is such data, nested no deeper than the
reader allows. -/
namespace Mender.Json
open Text Number

def AreCodes (ns : List Nat) : Prop := ∀ n ∈ ns, n < 0x110000

private theorem areCodes_nil : AreCodes [] := fun _ h => by cases h

def IsText : Datum → Prop
  | .text _ => True
  | .torn ns => AreCodes ns
  | _ => False

/-- Data that JSON has a form for, nested at most so deep. -/
def Storable : Nat → Datum → Prop
  | _, .null => True
  | _, .bool _ => True
  | _, .int i => Legible i
  | _, .float _ => True
  | _, .text _ => True
  | _, .torn ns => AreCodes ns
  | depth + 1, .list xs => ∀ x ∈ xs, Storable depth x
  | depth + 1, .dict es => ∀ e ∈ es, IsText e.1 ∧ Storable depth e.2
  | _, _ => False

variable {depth : Nat} {d : Datum}

theorem IsText.storable (h : IsText d) (depth : Nat) : Storable depth d := by
  cases d with
  | text s => simp only [Storable]
  | torn ns => simpa only [Storable, IsText] using h
  | _ => exact h.elim

theorem Storable.succ (h : Storable depth d) : Storable (depth + 1) d := by
  induction depth generalizing d with
  | zero => cases d <;> simp_all only [Storable]
  | succ depth ih =>
    cases d with
    | list xs =>
      simp only [Storable] at h ⊢
      exact fun x hx => ih (h x hx)
    | dict es =>
      simp only [Storable] at h ⊢
      exact fun e he => ⟨(h e he).1, ih (h e he).2⟩
    | _ => simp_all only [Storable]

theorem isText_ofCodes {ns : List Nat} (h : AreCodes ns) : IsText (.ofCodes ns) := by
  unfold Datum.ofCodes
  split
  · trivial
  · exact h

section Entries
variable {P Q : Datum → Prop} {es : List (Datum × Datum)}

private theorem insert_forall {k v : Datum} (h : ∀ e ∈ es, P e.1 ∧ Q e.2) (hk : P k) (hv : Q v) :
    ∀ e ∈ Datum.insert es k v, P e.1 ∧ Q e.2 := by
  intro e he
  unfold Datum.insert at he
  split at he
  · obtain ⟨x, hx, rfl⟩ := List.mem_map.mp he
    split
    · exact ⟨(h x hx).1, hv⟩
    · exact h x hx
  · rcases List.mem_append.mp he with he | he
    · exact h e he
    · rw [List.mem_singleton.mp he]
      exact ⟨hk, hv⟩

private theorem storable_ofEntries (h : ∀ e ∈ es, IsText e.1 ∧ Storable depth e.2) :
    Storable (depth + 1) (.ofEntries es) := by
  simp only [Datum.ofEntries, Storable]
  generalize hacc : ([] : List (Datum × Datum)) = acc
  have ha : ∀ e ∈ acc, IsText e.1 ∧ Storable depth e.2 := by simp [← hacc]
  clear hacc
  induction es generalizing acc with
  | nil => exact ha
  | cons x es ih =>
    obtain ⟨hx, hes⟩ := List.forall_mem_cons.mp h
    exact ih hes _ (insert_forall ha hx.1 hx.2)

end Entries

section Readers
variable {start fuel : Nat} {p q : Place} {t : Datum}

private theorem readString_step {acc : List Nat}
    (h : readString start (fuel + 1) acc p = .ok (t, q)) : t = .ofCodes acc.reverse ∨
      ∃ n r, n < 0x110000 ∧ readString start fuel (n :: acc) r = .ok (t, q) := by
  unfold readString at h
  split at h
  · cases h
  · cases h
    exact .inl rfl
  · cases h
  · split at h
    · cases h
    · rename_i n hn
      have hlt := hexDigits_lt hn
      split at h
      · split at h
        · cases h
        · rename_i low hlow
          obtain ⟨_, _, _, _, _, -, -, hl⟩ := lowUnit_eq_some hlow
          exact .inr ⟨_, _, by omega, h⟩
        · exact .inr ⟨_, _, by omega, h⟩
      · exact .inr ⟨_, _, by omega, h⟩
  · cases h
  · split at h
    · exact .inr ⟨_, _, toNat_lt _, h⟩
    · cases h
  · split at h
    · cases h
    · exact .inr ⟨_, _, toNat_lt _, h⟩

private theorem readString_isText {acc : List Nat} (ha : AreCodes acc)
    (h : readString start fuel acc p = .ok (t, q)) : IsText t := by
  induction fuel generalizing acc p with
  | zero => cases h
  | succ fuel ih =>
    rcases readString_step h with rfl | ⟨n, r, hn, h⟩
    · exact isText_ofCodes fun n hn => ha n (List.mem_reverse.mp hn)
    · exact ih (List.forall_mem_cons.mpr ⟨hn, ha⟩) h

private def ValueStored (fuel : Nat) : Prop :=
  ∀ {depth p d q}, readValue fuel depth p = .ok (d, q) → Storable depth d

private def MembersStored (fuel : Nat) : Prop :=
  ∀ {depth acc p d q}, (∀ e ∈ acc, IsText e.1 ∧ Storable depth e.2) →
    readMembers fuel depth acc p = .ok (d, q) → Storable (depth + 1) d

private def ItemsStored (fuel : Nat) : Prop :=
  ∀ {depth acc p d q}, (∀ x ∈ acc, Storable depth x) →
    readItems fuel depth acc p = .ok (d, q) → Storable (depth + 1) d

private theorem itemsStored_succ (hv : ValueStored fuel) (hi : ItemsStored fuel) :
    ItemsStored (fuel + 1) := by
  intro depth acc p d q ha h
  simp only [readItems] at h
  split at h
  · cases h
  · rename_i v r hr
    have ha : ∀ x ∈ v :: acc, Storable depth x := List.forall_mem_cons.mpr ⟨hv hr, ha⟩
    split at h
    · cases h
      simp only [Storable]
      exact fun x hx => ha x (List.mem_reverse.mp hx)
    · exact hi ha h
    · cases h

private theorem membersStored_succ (hv : ValueStored fuel) (hm : MembersStored fuel) :
    MembersStored (fuel + 1) := by
  intro depth acc p d q ha h
  simp only [readMembers] at h
  split at h
  · split at h
    · cases h
    · rename_i key k hk
      have hkey := readString_isText areCodes_nil hk
      split at h
      · split at h
        · cases h
        · rename_i v r hr
          have ha : ∀ e ∈ (key, v) :: acc, IsText e.1 ∧ Storable depth e.2 :=
            List.forall_mem_cons.mpr ⟨⟨hkey, hv hr⟩, ha⟩
          split at h
          · cases h
            exact storable_ofEntries fun e he => ha e (List.mem_reverse.mp he)
          · exact hm ha h
          · cases h
      · cases h
  · cases h

private theorem valueStored_succ (hm : MembersStored fuel) (hi : ItemsStored fuel) :
    ValueStored (fuel + 1) := by
  intro depth p d q h
  simp only [readValue] at h
  split at h
  · cases h
  · exact (readString_isText areCodes_nil h).storable depth
  · split at h
    · cases h
    · split at h
      · cases h
        simp [Storable]
      · exact hm (fun e he => by cases he) h
  · split at h
    · cases h
    · split at h
      · cases h
        simp [Storable]
      · exact hi (fun x hx => by cases hx) h
  · split at h
    · rename_i hw
      cases h
      obtain ⟨w, hfind, he⟩ := Option.map_eq_some_iff.mp hw
      cases he
      have hmem := List.mem_of_find?_eq_some hfind
      simp only [words, List.mem_cons, List.not_mem_nil, or_false] at hmem
      rcases hmem with rfl | rfl | rfl | rfl | rfl | rfl <;> simp only [Storable]
    · obtain ⟨-, ⟨i, hi, rfl⟩ | ⟨x, rfl⟩, -⟩ := readNumber_cases h
      · simpa only [Storable] using hi
      · simp only [Storable]

private theorem readers_store (fuel : Nat) :
    ValueStored fuel ∧ MembersStored fuel ∧ ItemsStored fuel := by
  induction fuel with
  | zero =>
    refine ⟨fun h => ?_, fun _ h => ?_, fun _ h => ?_⟩ <;>
      simp [readValue, readMembers, readItems] at h
  | succ fuel ih =>
    obtain ⟨hv, hm, hi⟩ := ih
    exact ⟨valueStored_succ hm hi, membersStored_succ hv hm, itemsStored_succ hv hi⟩

theorem storable_of_parse {s : String} (h : parse s depth = .ok d) : Storable depth d := by
  simp only [parse] at h
  split at h
  · cases h
  · split at h
    · cases h
    · rename_i hd
      split at h
      · cases h
        exact (readers_store _).1 hd
      · cases h

end Readers

end Mender.Json
