import Mathlib.Data.List.TakeWhile
import StoreAudit.Grammar.Leaf

/-! What the grammars of the log lines take off a text that begins with what they read, and what
they have read if they took something. -/
namespace StoreAudit.Grammar
variable {α β : Type} {p : Char → Bool} {cs rest last text : List Char} {a : α} {b : β}

/-- A longest run of characters in the class is over where `rest` begins. -/
def Stops (p : Char → Bool) (rest : List Char) : Prop := ∀ c ∈ rest.head?, p c = false

@[simp] theorem stops_cons {c : Char} : Stops p (c :: rest) ↔ p c = false := by
  simp [Stops]

theorem stops_append (h : text ≠ []) : Stops p (text ++ rest) ↔ Stops p text := by
  cases text with
  | nil => exact absurd rfl h
  | cons c cs => rw [List.cons_append, stops_cons, stops_cons]

theorem stops_of_forall (h : ∀ c ∈ text, p c = false) : Stops p text :=
  fun c hc => h c (List.mem_of_head? hc)

theorem takeWhile_of_stops (h : Stops p rest) : rest.takeWhile p = [] := by
  cases rest with
  | nil => rfl
  | cons c cs => simp [stops_cons.mp h]

theorem dropWhile_of_stops (h : Stops p rest) : rest.dropWhile p = rest := by
  cases rest with
  | nil => rfl
  | cons c cs => simp [stops_cons.mp h]

theorem takeWhile_append_of_stops (htext : ∀ c ∈ text, p c) (hrest : Stops p rest) :
    (text ++ rest).takeWhile p = text := by
  rw [List.takeWhile_append_of_pos htext, takeWhile_of_stops hrest, List.append_nil]

theorem dropWhile_append_of_stops (htext : ∀ c ∈ text, p c) (hrest : Stops p rest) :
    (text ++ rest).dropWhile p = rest := by
  rw [List.dropWhile_append_of_pos htext, dropWhile_of_stops hrest]

theorem bind_eq {g : Grammar α} {f : α → Grammar β} (h : g cs = .ok (a, rest)) :
    (g >>= f) cs = f a rest := by
  change (g cs >>= fun r => f r.1 r.2) = _
  rw [h]
  rfl

theorem bind_eq_error {g : Grammar α} {f : α → Grammar β} {s : Stop} (h : g cs = .error s) :
    (g >>= f) cs = .error s := by
  change (g cs >>= fun r => f r.1 r.2) = _
  rw [h]
  rfl

theorem bind_eq_ok_iff {g : Grammar α} {f : α → Grammar β} : (g >>= f) cs = .ok (b, last) ↔
    ∃ a rest, g cs = .ok (a, rest) ∧ f a rest = .ok (b, last) := by
  constructor
  · intro h
    cases hg : g cs with
    | error s => cases (bind_eq_error hg).symm.trans h
    | ok r => exact ⟨r.1, r.2, rfl, (bind_eq hg).symm.trans h⟩
  · intro ⟨a, rest, hg, hf⟩
    rw [bind_eq hg, hf]

theorem literal_eq_ok_iff {s : String} : literal s cs = .ok ((), rest) ↔ cs = s.toList ++ rest := by
  rw [← after?_eq_some_iff, literal]
  cases after? s.toList cs <;> simp

theorem literal_append (s : String) : literal s (s.toList ++ rest) = .ok ((), rest) :=
  literal_eq_ok_iff.mpr rfl

theorem literal_of_ne {s : String} {c c' : Char} (hs : s.toList = c' :: text) (h : c' ≠ c) :
    literal s (c :: cs) = .error ⟨c :: cs, none⟩ := by
  rw [literal, hs, after?, if_neg h]

theorem run_append (hne : text ≠ []) (htext : ∀ c ∈ text, p c) (hrest : Stops p rest) :
    run p (text ++ rest) = .ok (text, rest) := by
  rw [run, takeWhile_append_of_stops htext hrest, dropWhile_append_of_stops htext hrest]
  cases text with
  | nil => exact absurd rfl hne
  | cons c cs => rfl

theorem exists_run_eq_ok (h : ¬ Stops p cs) : ∃ text rest, run p cs = .ok (text, rest) := by
  cases cs with
  | nil => exact absurd (fun c hc => nomatch hc) h
  | cons c cs =>
    rw [stops_cons, Bool.not_eq_false] at h
    rw [run, List.takeWhile_cons_of_pos h]
    exact ⟨_, _, rfl⟩

theorem all_of_run (h : run p cs = .ok (text, rest)) : text ≠ [] ∧ ∀ c ∈ text, p c := by
  obtain ⟨hne, rfl, -⟩ := run_eq_ok h
  exact ⟨hne, fun c hc => List.mem_takeWhile_imp hc⟩

theorem hinting_eq_ok_iff {hint : Hint} {g : Grammar α} :
    hinting hint g cs = .ok (a, rest) ↔ g cs = .ok (a, rest) := by
  unfold hinting
  cases g cs <;> simp

theorem either_of_error {g g' : Grammar α} {s : Stop} (h : g cs = .error s) :
    either g g' cs = g' cs := by
  rw [either, h]

theorem either_eq_ok_iff {g g' : Grammar α} : either g g' cs = .ok (a, rest) ↔
    g cs = .ok (a, rest) ∨ (∃ s, g cs = .error s) ∧ g' cs = .ok (a, rest) := by
  unfold either
  cases g cs <;> simp

/-- What one of a table of spellings yields stands beside a spelling that the text begins with. -/
theorem of_oneOf {table : List (String × α)} (h : oneOf table cs = .ok (a, rest)) :
    ∃ text, (text, a) ∈ table ∧ cs = text.toList ++ rest := by
  unfold oneOf at h
  split at h
  · next r hfind =>
    cases h
    obtain ⟨⟨text, _⟩, hmem, hsome⟩ := List.exists_of_findSome?_eq_some hfind
    obtain ⟨_, hafter, heq⟩ := Option.map_eq_some_iff.mp hsome
    cases heq
    exact ⟨text, hmem, after?_eq_some_iff.mp hafter⟩
  · cases h

theorem optional_of_ok {g : Grammar α} (h : g cs = .ok (a, rest)) :
    optional g cs = .ok (some a, rest) := by
  rw [optional, h]

theorem optional_of_error {g : Grammar α} {s : Stop} (h : g cs = .error s) :
    optional g cs = .ok (none, cs) := by
  rw [optional, h]

theorem isGap_iff {c : Char} : isGap c ↔ c = ' ' ∨ c = '\t' := by
  rw [isGap, Bool.or_eq_true, beq_iff_eq, beq_iff_eq]

theorem isGap_eq_false_of_isDigit {c : Char} (h : c.isDigit) : isGap c = false := by
  rw [← Bool.not_eq_true, isGap_iff]
  rintro (rfl | rfl) <;> cases h

theorem isGap_eq_false_of_isAlpha {c : Char} (h : c.isAlpha) : isGap c = false := by
  rw [← Bool.not_eq_true, isGap_iff]
  rintro (rfl | rfl) <;> cases h

section Integer
variable {n : Nat}

theorem toList_toString (n : Nat) : (toString n).toList = Nat.toDigits 10 n := Nat.toList_repr

theorem isDigit_of_mem_toString {c : Char} (h : c ∈ (toString n).toList) : c.isDigit := by
  rw [toList_toString] at h
  exact Nat.isDigit_of_mem_toDigits (by decide) (by decide) h

theorem toString_ne_nil (n : Nat) : (toString n).toList ≠ [] := by
  rw [toList_toString]
  exact Nat.toDigits_ne_nil

theorem head?_toString_ne_zero (hn : n ≠ 0) : ((toString n).toList ++ rest).head? ≠ some '0' := by
  rw [toList_toString]
  induction n using Nat.strong_induction_on generalizing rest with
  | _ n ih =>
    rw [Nat.toDigits_eq_if (by decide)]
    split_ifs with hlt
    · simpa using hn
    · rw [List.append_assoc]
      exact ih (n / 10) (by omega) (by omega)

theorem integer_eq_run (h : cs.head? ≠ some '0') : integer cs = (do
    let (digits, rest) ← run Char.isDigit cs
    if valueOf digits < wordLimit then .ok (valueOf digits, rest) else .error ⟨cs, none⟩) := by
  unfold integer
  split
  · exact absurd rfl h
  · rfl

theorem valueOf_toString (n : Nat) : valueOf (toString n).toList = n := by
  rw [toList_toString]
  exact Nat.ofDigitChars_ten_toDigits

end Integer

section Integers
variable {n : Nat}

theorem moreIntegers_of_gap_error {s : Stop} (h : gap cs = .error s) :
    moreIntegers cs = ([], cs) := by
  rw [moreIntegers]
  split
  · rfl
  · next hg => cases h.symm.trans hg

theorem moreIntegers_of_ok (hgap : gap cs = .ok ((), text)) (hn : integer text = .ok (n, rest)) :
    moreIntegers cs = (n :: (moreIntegers rest).1, (moreIntegers rest).2) := by
  rw [moreIntegers]
  split
  · next hg => cases hgap.symm.trans hg
  · next hg =>
    cases hgap.symm.trans hg
    split
    · next hi => cases hn.symm.trans hi
    · next hi =>
      cases hn.symm.trans hi
      rfl

theorem exists_gap_eq_ok (h : ¬ Stops isGap cs) : ∃ rest, gap cs = .ok ((), rest) := by
  obtain ⟨_, rest, hrun⟩ := exists_run_eq_ok h
  exact ⟨rest, by rw [gap, hrun]⟩

theorem gap_of_stops (h : Stops isGap cs) : gap cs = .error ⟨cs, none⟩ := by
  rw [gap, run, takeWhile_of_stops h]

theorem ahead_gap_eq_ok_iff : ahead gap cs = .ok ((), rest) ↔ ¬ Stops isGap cs ∧ cs = rest := by
  by_cases h : Stops isGap cs
  · rw [ahead, gap_of_stops h]
    simp [h]
  · obtain ⟨_, hgap⟩ := exists_gap_eq_ok h
    rw [ahead, hgap]
    simp [h]

theorem toList_intercalate_toString (n : Nat) (ns : Words) :
    (" ".intercalate ((n :: ns).map toString)).toList =
      (toString n).toList ++ ns.flatMap fun n => ' ' :: (toString n).toList := by
  induction ns generalizing n with
  | nil => simp
  | cons m ns ih =>
    rw [List.map_cons, List.map_cons, String.intercalate_cons_cons, String.toList_append,
      ← List.map_cons, ih, List.flatMap_cons, String.toList_append, List.append_assoc]
    rfl

end Integers

theorem truth_append (b : Bool) : truth ((toString b).toList ++ rest) = .ok (b, rest) := by
  cases b <;> rfl

section Field
variable {name : String} {value : Grammar α}

/-- A field and the space after it, in front of `rest`. -/
def fieldText (name : String) (text rest : List Char) : List Char :=
  name.toList ++ (":".toList ++ (text ++ (" ".toList ++ rest)))

theorem field_eq_ok_iff : field name value cs = .ok (a, rest) ↔
    ∃ text, cs = name.toList ++ (":".toList ++ text) ∧ value text = .ok (a, rest) := by
  constructor
  · intro h
    obtain ⟨_, _, hname, h⟩ := bind_eq_ok_iff.mp h
    obtain ⟨_, text, hcolon, h⟩ := bind_eq_ok_iff.mp h
    rw [hinting_eq_ok_iff, literal_eq_ok_iff] at hname
    rw [literal_eq_ok_iff] at hcolon
    exact ⟨text, hcolon ▸ hname, hinting_eq_ok_iff.mp h⟩
  · rintro ⟨text, rfl, h⟩
    rw [field, bind_eq (hinting_eq_ok_iff.mpr (literal_append name)),
      bind_eq (literal_append ":"), hinting_eq_ok_iff]
    exact h

end Field

theorem readLine_of_error {g : Grammar α} {line : String} {s : Stop}
    (h : g line.toList = .error s) : readLine g line = .error s := by
  rw [readLine, h]
  rfl

theorem readLine_eq_ok_iff {g : Grammar α} {line : String} : readLine g line = .ok a ↔
    ∃ rest, g line.toList = .ok (a, rest) ∧ ∀ c ∈ rest, isGap c := by
  unfold readLine
  cases hg : g line.toList with
  | error s => simp [bind, Except.bind]
  | ok r =>
    obtain ⟨b, rest⟩ := r
    simp only [bind, Except.bind, Except.ok.injEq, Prod.mk.injEq]
    constructor
    · intro h
      split at h
      · next hdrop =>
        cases h
        exact ⟨rest, ⟨rfl, rfl⟩, List.dropWhile_eq_nil_iff.mp hdrop⟩
      · cases h
    · rintro ⟨_, ⟨rfl, rfl⟩, hblank⟩
      rw [List.dropWhile_eq_nil_iff.mpr hblank]

theorem exists_of_readLine {g : Grammar α} {line : String} (h : readLine g line = .ok a) :
    ∃ rest, g line.toList = .ok (a, rest) := by
  obtain ⟨rest, hg, -⟩ := readLine_eq_ok_iff.mp h
  exact ⟨rest, hg⟩

end StoreAudit.Grammar
