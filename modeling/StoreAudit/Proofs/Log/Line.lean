import Mathlib.Data.List.DropRight
import StoreAudit.Log.Line
import StoreAudit.Proofs.Grammar.Leaf

/-! What the readers of all logs do with a line before they read what it holds. -/
namespace StoreAudit
open Grammar

namespace LogLine
variable {line : String} {c : Char} {cs : List Char}

theorem content_eq_self (hfeed : '\n' ∉ line.toList) (hreturn : '\r' ∉ line.toList) :
    content line = line := by
  have hstops : Stops (fun c => c == '\n' || c == '\r') line.toList.reverse := by
    refine stops_of_forall fun c hc => ?_
    rw [List.mem_reverse] at hc
    rw [Bool.or_eq_false_iff, beq_eq_false_iff_ne, beq_eq_false_iff_ne]
    exact ⟨fun h => hfeed (h ▸ hc), fun h => hreturn (h ▸ hc)⟩
  rw [content, Text.dropWhileEnd, dropWhile_of_stops hstops, List.reverse_reverse,
    String.ofList_toList]

/-- Only what stands behind the last character that is no line end can be cut off. -/
theorem exists_toList_content {front rest : List Char} (hline : line.toList = front ++ rest)
    (hfront : Stops (fun c => c == '\n' || c == '\r') front.reverse) :
    ∃ kept, (content line).toList = front ++ kept ∧ kept <+: rest := by
  let p (c : Char) : Bool := c == '\n' || c == '\r'
  have hcontent : (content line).toList = (front ++ rest).rdropWhile p := by
    rw [content, String.toList_ofList, hline]
    rfl
  rw [hcontent, List.rdropWhile, List.reverse_append, List.dropWhile_append]
  split_ifs with hempty
  · refine ⟨[], ?_, List.nil_prefix⟩
    rw [dropWhile_of_stops hfront, List.reverse_reverse, List.append_nil]
  · refine ⟨rest.rdropWhile p, ?_, List.rdropWhile_prefix p rest⟩
    rw [List.reverse_append, List.reverse_reverse]
    rfl

theorem isBlank_eq_false_of_isDigit (h : c.isDigit) : Text.isBlank c = false := by
  have hlow : 48 ≤ c.toNat := (Char.isDigit_iff_toNat.mp h).1
  have hhigh : c.toNat ≤ 57 := (Char.isDigit_iff_toNat.mp h).2
  unfold Text.isBlank
  simp only [List.contains_eq_mem, List.mem_cons, List.not_mem_nil, or_false, Bool.decide_or,
    Bool.or_eq_false_iff, Bool.and_eq_false_imp, decide_eq_true_eq, decide_eq_false_iff_not, not_le]
  omega

theorem parse?_of_isDigit (hline : line.toList = c :: cs) (hc : c.isDigit) :
    FaultMark.parse? line = none := by
  have hne (x : Char) (hx : x.isDigit = false) : x ≠ c := by
    rintro rfl
    exact absurd hc (Bool.eq_false_iff.mp hx)
  have hnode : FaultMark.ofNode (c :: cs) = .error ⟨c :: cs, none⟩ :=
    bind_eq_error (literal_of_ne rfl (hne 'N' rfl))
  have hpartition : FaultMark.ofPartition (c :: cs) = .error ⟨c :: cs, none⟩ :=
    bind_eq_error (literal_of_ne rfl (hne 'P' rfl))
  rw [FaultMark.parse?, readLine_of_error]
  · rfl
  · rw [hline, either_of_error hnode, hpartition]

/-- A line that begins with a digit is not one that every log may hold. -/
theorem common?_of_isDigit (hline : line.toList = c :: cs) (hc : c.isDigit) :
    common? line = none := by
  have hblank : Text.allBlank line.toList = false := by
    rw [hline, Text.allBlank, List.all_cons, isBlank_eq_false_of_isDigit hc, Bool.false_and]
  have hbrace : line.toList.head? ≠ some '{' := by
    rw [hline, List.head?_cons, ne_eq, Option.some.injEq]
    rintro rfl
    cases hc
  rw [common?, hblank, if_neg Bool.false_ne_true, if_neg hbrace, parse?_of_isDigit hline hc]
  rfl

/-- What every log may hold is neither a message nor a record. -/
theorem of_common? {text : String} {common : LogLine} (h : common? text = some common) :
    common = .blank ∨ common = .monitor text ∨ ∃ mark, common = .fault mark := by
  unfold common? at h
  split_ifs at h
  · exact .inl (Option.some.inj h).symm
  · exact .inr (.inl (Option.some.inj h).symm)
  · obtain ⟨mark, -, hmark⟩ := Option.map_eq_some_iff.mp h
    exact .inr (.inr ⟨mark, hmark.symm⟩)

/-- Letters, digits, and what separates them in the lines that are written. -/
def isPlain (c : Char) : Bool := c.isAlphanum || [' ', ':', '[', ']', '{', '}'].contains c

theorem isPlain_of_isAlphanum {c : Char} (h : c.isAlphanum) : isPlain c := by
  rw [isPlain, h, Bool.true_or]

theorem isPlain_toString (n : Nat) : ∀ c ∈ (toString n).toList, isPlain c := fun c hc =>
  isPlain_of_isAlphanum (by simp [Char.isAlphanum, isDigit_of_mem_toString hc])

theorem isPlain_words (w : Words) : ∀ c ∈ w.render.toList, isPlain c := by
  rw [Words.render, String.toList_append, String.toList_append, List.forall_mem_append,
    List.forall_mem_append]
  refine ⟨⟨List.all_eq_true.mp rfl, ?_⟩, List.all_eq_true.mp rfl⟩
  cases w with
  | nil => simp
  | cons n ns =>
    rw [toList_intercalate_toString, List.forall_mem_append]
    refine ⟨isPlain_toString n, fun c hc => ?_⟩
    obtain ⟨m, -, hc⟩ := List.mem_flatMap.mp hc
    rcases List.mem_cons.mp hc with rfl | hc
    · rfl
    · exact isPlain_toString m c hc

end LogLine
end StoreAudit
