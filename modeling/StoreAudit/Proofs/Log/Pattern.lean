import Mathlib.Computability.Language
import StoreAudit.Proofs.Log.Token

/-! The patterns of the tokens. What begins a token is the longest beginning of a text that matches
any of them. -/
namespace StoreAudit.Token
open Computability
variable {c : Char} {cs rest word : List Char} {kind : Kind} {n : Nat}

/-- A single character that passes a test. -/
def oneChar (p : Char → Bool) : Language Char := {word | ∃ c, p c ∧ word = [c]}

/-- How the tokens of a kind are spelled. -/
def Kind.pattern : Kind → Language Char
  | .braceOpen => {['{']}
  | .braceClose => {['}']}
  | .bracketOpen => {['[']}
  | .bracketClose => {[']']}
  | .colon => {[':']}
  | .ident => oneChar isIdentStart * (oneChar isIdentPart)∗
  | .integer => oneChar Char.isDigit * (oneChar Char.isDigit)∗
  | .newline => (1 + {['\r']}) * {['\n']}
  | .whitespace => oneChar isSpace * (oneChar isSpace)∗

/-- No pattern matches a longer beginning of the text than `word`. -/
def Longest (word text : List Char) : Prop :=
  ∀ (kind : Kind) (w : List Char), w <+: text → w ∈ kind.pattern → w.length ≤ word.length

/-- No pattern matches any beginning of the text. -/
def StartsNone (text : List Char) : Prop :=
  ∀ (kind : Kind) (w : List Char), w <+: text → w ∉ kind.pattern

/-- The character is no brace, bracket or colon, no letter, digit or underscore, no space, tab or
line feed, and no return in front of a line feed. -/
def Plain (c : Char) (rest : List Char) : Prop :=
  c ∉ ['{', '}', '[', ']', ':', '_', ' ', '\t', '\n'] ∧ ¬ c.isAlphanum ∧
    ¬ (c = '\r' ∧ rest.head? = some '\n')

theorem mem_kstar_oneChar {p : Char → Bool} : word ∈ (oneChar p)∗ ↔ ∀ c ∈ word, p c := by
  rw [Language.mem_kstar]
  constructor
  · rintro ⟨parts, rfl, hparts⟩ c hc
    obtain ⟨part, hpart, hc⟩ := List.mem_flatten.mp hc
    obtain ⟨d, hd, rfl⟩ := hparts part hpart
    rw [List.mem_singleton.mp hc]
    exact hd
  · intro hall
    have hflat : word = (word.map ([·])).flatten := by
      rw [← List.flatMap_def, List.flatMap_singleton']
    refine ⟨word.map ([·]), hflat, fun part hpart => ?_⟩
    obtain ⟨c, hc, rfl⟩ := List.mem_map.mp hpart
    exact ⟨c, hall c hc, rfl⟩

theorem mem_oneChar_mul_kstar {p q : Char → Bool} : word ∈ oneChar p * (oneChar q)∗ ↔
    ∃ c cs, word = c :: cs ∧ p c ∧ ∀ x ∈ cs, q x := by
  rw [Language.mem_mul]
  constructor
  · rintro ⟨_, ⟨c, hc, rfl⟩, cs, hcs, rfl⟩
    exact ⟨c, cs, rfl, hc, mem_kstar_oneChar.mp hcs⟩
  · rintro ⟨c, cs, rfl, hc, hcs⟩
    exact ⟨[c], ⟨c, hc, rfl⟩, cs, mem_kstar_oneChar.mpr hcs, rfl⟩

/-- The one word of one character, as a character that nothing goes on with. -/
theorem mem_singleton_iff_exists_cons {d : Char} : word ∈ ({[d]} : Language Char) ↔
    ∃ c cs, word = c :: cs ∧ (c == d) ∧ ∀ x ∈ cs, (false : Bool) := by
  constructor
  · intro hword
    have hword : word = [d] := hword
    exact ⟨d, [], hword, beq_self_eq_true d, List.forall_mem_nil _⟩
  · rintro ⟨c, cs, rfl, hc, hcs⟩
    have hnil : cs = [] := List.eq_nil_iff_forall_not_mem.mpr fun x hx =>
      Bool.false_ne_true (hcs x hx)
    rw [hnil, beq_iff_eq.mp hc]
    rfl

theorem mem_pattern_iff : word ∈ kind.pattern ↔
    (∃ c cs, word = c :: cs ∧ kind.begins c ∧ ∀ x ∈ cs, kind.continues x) ∨
      kind = .newline ∧ word = ['\r', '\n'] := by
  by_cases hkind : kind = .newline
  · subst hkind
    unfold Kind.pattern
    rw [add_mul, one_mul, Language.mem_add, Language.mem_mul]
    refine or_congr mem_singleton_iff_exists_cons ⟨?_, ?_⟩
    · rintro ⟨_, rfl, _, rfl, rfl⟩
      exact ⟨rfl, rfl⟩
    · rintro ⟨-, rfl⟩
      exact ⟨['\r'], rfl, ['\n'], rfl, rfl⟩
  · rw [or_iff_left fun h => hkind h.1]
    cases kind with
    | newline => exact absurd rfl hkind
    | ident | integer | whitespace => exact mem_oneChar_mul_kstar
    | _ => exact mem_singleton_iff_exists_cons

theorem ne_nil_of_mem_pattern (h : word ∈ kind.pattern) : word ≠ [] := by
  rcases mem_pattern_iff.mp h with ⟨c, cs, rfl, -⟩ | ⟨-, rfl⟩
  · exact List.cons_ne_nil c cs
  · exact List.cons_ne_nil _ _

theorem lead?_of_not_begins (h : ∀ kind : Kind, ¬ kind.begins c) (rest : List Char) :
    lead? c rest = if c = '\r' ∧ rest.head? = some '\n' then some (.newline, 1) else none := by
  have hident : ¬ isIdentStart c := h .ident
  have hdigit : ¬ c.isDigit := h .integer
  have hspace : ¬ isSpace c := h .whitespace
  unfold lead?
  rw [if_neg (mt beq_iff_eq.mpr (h .braceOpen)), if_neg (mt beq_iff_eq.mpr (h .braceClose)),
    if_neg (mt beq_iff_eq.mpr (h .bracketOpen)), if_neg (mt beq_iff_eq.mpr (h .bracketClose)),
    if_neg (mt beq_iff_eq.mpr (h .colon)), if_neg (mt beq_iff_eq.mpr (h .newline)),
    if_neg hident, if_neg hdigit, if_neg hspace, ite_and]

theorem begins_of_lead? (h : lead? c rest = some (kind, n)) :
    kind.begins c ∨ c = '\r' ∧ rest.head? = some '\n' ∧ kind = .newline ∧ n = 1 := by
  by_cases hbegins : ∃ k : Kind, k.begins c
  · obtain ⟨k, hk⟩ := hbegins
    rw [lead?_of_begins hk] at h
    cases h
    exact .inl hk
  · rw [lead?_of_not_begins (not_exists.mp hbegins)] at h
    split_ifs at h with hreturn
    cases h
    exact .inr ⟨hreturn.1, hreturn.2, rfl, rfl⟩

/-- What a token at the front can be. Only a return is part of a token by what stands behind it. -/
theorem lead?_eq_some_iff : lead? c rest = some (kind, n) ↔
    kind.begins c ∧ n = (rest.takeWhile kind.continues).length ∨
      c = '\r' ∧ rest.head? = some '\n' ∧ kind = .newline ∧ n = 1 := by
  constructor
  · intro h
    refine (begins_of_lead? h).imp_left fun hbegins => ⟨hbegins, ?_⟩
    rw [lead?_of_begins hbegins, Option.some_inj, Prod.mk.injEq] at h
    exact h.2.symm
  · rintro (⟨hbegins, rfl⟩ | ⟨rfl, hfeed, rfl, rfl⟩)
    · exact lead?_of_begins hbegins rest
    · exact if_pos hfeed

/-- What is taken as a token matches the pattern of its kind. -/
theorem mem_pattern_of_lead? (h : lead? c rest = some (kind, n)) :
    c :: rest.take n ∈ kind.pattern ∧ n ≤ rest.length := by
  rw [mem_pattern_iff]
  rcases lead?_eq_some_iff.mp h with ⟨hbegins, rfl⟩ | ⟨rfl, hfeed, rfl, rfl⟩
  · have htake : rest.take (rest.takeWhile kind.continues).length =
        rest.takeWhile kind.continues :=
      (List.prefix_iff_eq_take.mp (List.takeWhile_prefix _)).symm
    have hall : ∀ x ∈ rest.takeWhile kind.continues, kind.continues x := fun x hx =>
      List.mem_takeWhile_imp hx
    refine ⟨.inl ⟨c, _, rfl, hbegins, ?_⟩, (List.takeWhile_prefix _).length_le⟩
    rw [htake]
    exact hall
  · obtain ⟨tail, rfl⟩ := List.head?_eq_some_iff.mp hfeed
    refine ⟨.inr ⟨rfl, rfl⟩, ?_⟩
    simp

/-- Where a pattern matches a beginning of the text, a token of its kind is taken that is no
shorter. -/
theorem exists_lead?_of_prefix (h : word ∈ kind.pattern) (hword : word <+: c :: rest) :
    ∃ n, word.length ≤ n + 1 ∧ lead? c rest = some (kind, n) := by
  obtain ⟨after, hafter⟩ := hword
  rcases mem_pattern_iff.mp h with ⟨d, cs, rfl, hbegins, hall⟩ | ⟨rfl, rfl⟩
  · rw [List.cons_append, List.cons.injEq] at hafter
    obtain ⟨rfl, rfl⟩ := hafter
    refine ⟨_, ?_, lead?_of_begins hbegins _⟩
    rw [List.takeWhile_append_of_pos hall, List.length_append, List.length_cons]
    omega
  · rw [List.cons_append, List.cons.injEq] at hafter
    obtain ⟨rfl, rfl⟩ := hafter
    exact ⟨1, le_rfl, rfl⟩

theorem isPrefix_cons_take (c : Char) (rest : List Char) (n : Nat) :
    c :: rest.take n <+: c :: rest :=
  List.cons_prefix_cons.mpr ⟨rfl, List.take_prefix n rest⟩

theorem longest_of_lead? (h : lead? c rest = some (kind, n)) :
    Longest (c :: rest.take n) (c :: rest) := by
  intro k w hw hmem
  obtain ⟨m, hle, hlead⟩ := exists_lead?_of_prefix hmem hw
  have hn := (mem_pattern_of_lead? h).2
  rw [h, Option.some_inj, Prod.mk.injEq] at hlead
  obtain ⟨-, rfl⟩ := hlead
  rw [List.length_cons, List.length_take]
  omega

theorem startsNone_of_lead? (h : lead? c rest = none) : StartsNone (c :: rest) := by
  intro k w hw hmem
  obtain ⟨m, -, hlead⟩ := exists_lead?_of_prefix hmem hw
  rw [h] at hlead
  cases hlead

theorem lead?_of_longest (hword : c :: cs ∈ kind.pattern)
    (hlongest : Longest (c :: cs) (c :: cs ++ rest)) :
    lead? c (cs ++ rest) = some (kind, cs.length) := by
  have hprefix : c :: cs <+: c :: (cs ++ rest) := List.prefix_append (c :: cs) rest
  obtain ⟨n, hle, hlead⟩ := exists_lead?_of_prefix hword hprefix
  obtain ⟨hmem, hn⟩ := mem_pattern_of_lead? hlead
  have hlength := hlongest kind _ (isPrefix_cons_take c (cs ++ rest) n) hmem
  rw [List.length_cons] at hle
  rw [List.length_cons, List.length_cons, List.length_take] at hlength
  have heq : n = cs.length := by omega
  rw [hlead, heq]

theorem lead?_of_startsNone (h : StartsNone (c :: rest)) : lead? c rest = none := by
  cases hlead : lead? c rest with
  | none => rfl
  | some taken =>
    have hmem := (mem_pattern_of_lead? hlead).1
    exact absurd hmem (h taken.1 _ (isPrefix_cons_take c rest taken.2))

theorem StartsNone.plain (h : StartsNone (c :: rest)) : Plain c rest := by
  have hlead := lead?_of_startsNone h
  have hnone (kind : Kind) : ¬ kind.begins c := by
    intro hbegins
    rw [lead?_of_begins hbegins] at hlead
    cases hlead
  refine ⟨?_, ?_, ?_⟩
  · intro hc
    simp only [List.mem_cons, List.not_mem_nil, or_false] at hc
    rcases hc with rfl | rfl | rfl | rfl | rfl | rfl | rfl | rfl | rfl
    exacts [hnone .braceOpen rfl, hnone .braceClose rfl, hnone .bracketOpen rfl,
      hnone .bracketClose rfl, hnone .colon rfl, hnone .ident rfl, hnone .whitespace rfl,
      hnone .whitespace rfl, hnone .newline rfl]
  · intro hc
    rcases Bool.or_eq_true_iff.mp hc with halpha | hdigit
    · exact hnone .ident (Bool.or_eq_true_iff.mpr (.inl halpha))
    · exact hnone .integer hdigit
  · intro hc
    have htaken : lead? c rest = some (.newline, 1) :=
      lead?_eq_some_iff.mpr (.inr ⟨hc.1, hc.2, rfl, rfl⟩)
    rw [hlead] at htaken
    cases htaken

end StoreAudit.Token
