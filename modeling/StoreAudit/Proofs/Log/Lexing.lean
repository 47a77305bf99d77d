import Mathlib.Data.String.Basic
import StoreAudit.Proofs.Log.Pattern

/-! Cutting a text into tokens. They stand in the text one behind the other, and at a character that
is left out no token starts. -/
namespace StoreAudit.Token
variable {offset : Nat} {c : Char} {cs : List Char} {ts : List (Token × List Char)} {text : String}

theorem byteLength_eq_utf8Len (cs : List Char) : byteLength cs = String.utf8Len cs := by
  induction cs with
  | nil => rfl
  | cons c cs ih =>
    have hcons : byteLength (c :: cs) = c.utf8Size + byteLength cs := rfl
    rw [hcons, ih, String.utf8Len_cons, Nat.add_comm]

theorem byteLength_append (cs ds : List Char) :
    byteLength (cs ++ ds) = byteLength cs + byteLength ds := by
  simp only [byteLength_eq_utf8Len, String.utf8Len_append]

theorem byteLength_cons (c : Char) (cs : List Char) :
    byteLength (c :: cs) = c.utf8Size + byteLength cs := rfl

theorem byteLength_toList (s : String) : byteLength s.toList = s.utf8ByteSize := by
  rw [byteLength_eq_utf8Len, ← String.utf8ByteSize_ofList, String.ofList_toList]

/-- Leftmost and longest matching, where `offset` bytes stand before the characters. A token is the
longest beginning of what is left that any pattern matches. Where there is none, one character is
dropped. -/
inductive Lexes : Nat → List Char → List (Token × List Char) → Prop where
  | done (offset : Nat) : Lexes offset [] []
  | token {offset : Nat} {kind : Kind} {word rest : List Char} {ts : List (Token × List Char)}
      (matched : word ∈ kind.pattern) (longest : Longest word (word ++ rest))
      (tail : Lexes (offset + byteLength word) rest ts) :
      Lexes offset (word ++ rest) ((⟨kind, offset, offset + byteLength word⟩, word) :: ts)
  | drop {offset : Nat} {c : Char} {rest : List Char} {ts : List (Token × List Char)}
      (unmatched : StartsNone (c :: rest)) (tail : Lexes (offset + c.utf8Size) rest ts) :
      Lexes offset (c :: rest) ts

theorem lexes_scanFrom (offset : Nat) (cs : List Char) : Lexes offset cs (scanFrom offset cs) := by
  induction offset, cs using scanFrom.induct with
  | case1 offset =>
    rw [scanFrom]
    exact .done offset
  | case2 offset c rest hlead ih =>
    rw [scanFrom, hlead]
    exact .drop (startsNone_of_lead? hlead) ih
  | case3 offset c rest kind n hlead word stop ih =>
    rw [scanFrom_cons hlead]
    have hcut : c :: rest = word ++ rest.drop n :=
      congrArg (c :: ·) (List.take_append_drop n rest).symm
    have hlongest := longest_of_lead? hlead
    rw [hcut] at hlongest ⊢
    exact .token (mem_pattern_of_lead? hlead).1 hlongest ih

theorem Lexes.eq_scanFrom (h : Lexes offset cs ts) : ts = scanFrom offset cs := by
  induction h with
  | done offset => rw [scanFrom]
  | token matched longest tail ih =>
    obtain ⟨c, cs, rfl⟩ := List.exists_cons_of_ne_nil (ne_nil_of_mem_pattern matched)
    have hlead := lead?_of_longest matched longest
    rw [List.cons_append, scanFrom_cons hlead, List.take_left, List.drop_left, ← ih]
  | drop unmatched tail ih =>
    rw [scanFrom, lead?_of_startsNone unmatched]
    exact ih

/-- A token stands in the text between what was cut before it and what was left behind it. -/
theorem Lexes.exists_between (h : Lexes offset cs ts) {t : Token} {word : List Char}
    (ht : (t, word) ∈ ts) : ∃ before after, cs = before ++ word ++ after ∧
      t.start = offset + byteLength before ∧ t.stop = t.start + byteLength word ∧
      word ∈ t.kind.pattern ∧ Longest word (word ++ after) := by
  induction h with
  | done offset => cases ht
  | @token offset kind word' rest ts matched longest tail ih =>
    rcases List.mem_cons.mp ht with heq | ht
    · obtain ⟨rfl, rfl⟩ := Prod.mk.inj heq
      exact ⟨[], rest, rfl, rfl, rfl, matched, longest⟩
    · obtain ⟨before, after, hrest, hstart, hstop, hmem, hlong⟩ := ih ht
      refine ⟨word' ++ before, after, ?_, ?_, hstop, hmem, hlong⟩
      · rw [hrest, List.append_assoc, List.append_assoc, List.append_assoc]
      · rw [hstart, byteLength_append, Nat.add_assoc]
  | @drop offset c rest ts unmatched tail ih =>
    obtain ⟨before, after, hrest, hstart, hstop, hmem, hlong⟩ := ih ht
    refine ⟨c :: before, after, ?_, ?_, hstop, hmem, hlong⟩
    · rw [hrest]
      rfl
    · rw [hstart, Nat.add_assoc]
      rfl

theorem Lexes.le_start (h : Lexes offset cs ts) : ∀ p ∈ ts, offset ≤ p.1.start := by
  intro p hp
  obtain ⟨before, after, -, hstart, -⟩ := h.exists_between hp
  omega

theorem Lexes.ordered (h : Lexes offset cs ts) : ts.Pairwise fun p q => p.1.stop ≤ q.1.start := by
  induction h with
  | done offset => exact List.Pairwise.nil
  | token matched longest tail ih => exact List.pairwise_cons.mpr ⟨tail.le_start, ih⟩
  | drop unmatched tail ih => exact ih

/-- No token starts at a character that stands in none. -/
theorem Lexes.startsNone (h : Lexes offset cs ts) {before after : List Char}
    (hcs : cs = before ++ c :: after) (hout : ∀ p ∈ ts, offset + byteLength before < p.1.start ∨
      p.1.stop ≤ offset + byteLength before) : StartsNone (c :: after) := by
  induction h generalizing before with
  | done offset =>
    exact absurd hcs.symm (List.append_ne_nil_of_right_ne_nil before (List.cons_ne_nil c after))
  | @token offset kind word rest ts matched longest tail ih =>
    have hbehind (front : List Char) (hfront : before = word ++ front)
        (hrest : rest = front ++ c :: after) : StartsNone (c :: after) := by
      refine ih hrest fun p hp => ?_
      have hp := hout p (List.mem_cons_of_mem _ hp)
      rw [hfront, byteLength_append] at hp
      omega
    rcases List.append_eq_append_iff.mp hcs with ⟨front, hfront, hrest⟩ | ⟨inside, hword, hrest⟩
    · exact hbehind front hfront hrest
    · cases inside with
      | nil => exact hbehind [] (by simpa using hword.symm) (by simpa using hrest.symm)
      | cons d inside =>
        have hhead := hout _ List.mem_cons_self
        have hpos := d.utf8Size_pos
        simp only [hword, byteLength_append, byteLength_cons] at hhead
        omega
  | @drop offset d rest ts unmatched tail ih =>
    cases before with
    | nil =>
      rw [List.nil_append] at hcs
      rw [← hcs]
      exact unmatched
    | cons e before =>
      rw [List.cons_append, List.cons.injEq] at hcs
      obtain ⟨rfl, hrest⟩ := hcs
      refine ih hrest fun p hp => ?_
      have hp := hout p hp
      rw [byteLength_cons] at hp
      omega

section Positions
variable {before word after : List Char}

theorem isValid_byteLength (htext : text.toList = before ++ after) :
    (⟨byteLength before⟩ : String.Pos.Raw).IsValid text := by
  refine String.Pos.Raw.isValid_iff_exists_append.mpr
    ⟨String.ofList before, String.ofList after, ?_, ?_⟩
  · rw [← String.ofList_append, ← htext, String.ofList_toList]
  · rw [String.rawEndPos_ofList, byteLength_eq_utf8Len]

theorem extract_byteLength (htext : text.toList = before ++ word ++ after) :
    String.Pos.Raw.extract text ⟨byteLength before⟩ ⟨byteLength before + byteLength word⟩ =
      String.ofList word := by
  rw [← String.ofList_toList (s := text), htext, byteLength_eq_utf8Len, byteLength_eq_utf8Len]
  exact String.extract_of_valid before word after

/-- A position behind the word is behind something more. -/
theorem exists_more {stop : Nat} (htext : text.toList = before ++ word ++ after)
    (hstop : byteLength before + byteLength word < stop)
    (hvalid : (⟨stop⟩ : String.Pos.Raw).IsValid text) :
    ∃ more rest, after = more ++ rest ∧ more ≠ [] ∧
      stop = byteLength before + byteLength (word ++ more) := by
  obtain ⟨front, rest, hsplit, hfront⟩ := String.Pos.Raw.isValid_iff_exists_append.mp hvalid
  have hsize : stop = byteLength front.toList := by
    rw [byteLength_toList]
    exact congrArg String.Pos.Raw.byteIdx hfront
  have hlist : before ++ word ++ after = front.toList ++ rest.toList := by
    rw [← htext, hsplit, String.toList_append]
  rw [← byteLength_append] at hstop
  rcases List.append_eq_append_iff.mp hlist with ⟨more, hmore, hafter⟩ | ⟨inside, hinside, -⟩
  · have hstop' : stop = byteLength (before ++ word) + byteLength more := by
      rw [hsize, hmore, byteLength_append]
    refine ⟨more, rest.toList, hafter, ?_, ?_⟩
    · rintro rfl
      exact absurd (hstop.trans_eq hstop') (lt_irrefl _)
    · rw [hstop', byteLength_append, byteLength_append, Nat.add_assoc]
  · rw [hinside, byteLength_append] at hstop
    omega

end Positions

/-- The tokens are what leftmost and longest matching cuts the text into. -/
def Lexing (text : String) (tokens : List (Token × String)) : Prop :=
  Lexes 0 text.toList (tokens.map fun p => (p.1, p.2.toList))

theorem lexing_iff {tokens : List (Token × String)} : Lexing text tokens ↔ tokens = scan text := by
  unfold Lexing scan
  constructor
  · intro h
    have hback : (fun x : Token × List Char => (x.1, String.ofList x.2)) ∘
        (fun p : Token × String => (p.1, p.2.toList)) = id :=
      funext fun p => Prod.ext rfl String.ofList_toList
    rw [← h.eq_scanFrom, List.map_map, hback, List.map_id]
  · rintro rfl
    have hback : (fun p : Token × String => (p.1, p.2.toList)) ∘
        (fun x : Token × List Char => (x.1, String.ofList x.2)) = id :=
      funext fun p => Prod.ext rfl String.toList_ofList
    rw [List.map_map, hback, List.map_id]
    exact lexes_scanFrom 0 text.toList

/-- The tokens stand in the text one behind the other. Each covers whole characters and carries what
is written there, which matches the pattern of its kind and would not if it went on further. At a
character that no token covers none starts. -/
structure Faithful (text : String) (tokens : List (Token × String)) : Prop where
  nonempty : ∀ p ∈ tokens, p.1.start < p.1.stop
  ordered : tokens.Pairwise fun p q => p.1.stop ≤ q.1.start
  boundaries : ∀ p ∈ tokens, (⟨p.1.start⟩ : String.Pos.Raw).IsValid text ∧
    (⟨p.1.stop⟩ : String.Pos.Raw).IsValid text
  slice : ∀ p ∈ tokens, String.Pos.Raw.extract text ⟨p.1.start⟩ ⟨p.1.stop⟩ = p.2
  matched : ∀ p ∈ tokens, p.2.toList ∈ p.1.kind.pattern
  longest : ∀ p ∈ tokens, ∀ stop, p.1.stop < stop → (⟨stop⟩ : String.Pos.Raw).IsValid text →
    (String.Pos.Raw.extract text ⟨p.1.start⟩ ⟨stop⟩).toList ∉ p.1.kind.pattern
  dropped : ∀ before c after, text = before ++ String.singleton c ++ after →
    (∀ p ∈ tokens, before.utf8ByteSize < p.1.start ∨ p.1.stop ≤ before.utf8ByteSize) →
    StartsNone (c :: after.toList) ∧ Plain c after.toList

theorem Lexing.exists_between {tokens : List (Token × String)} (h : Lexing text tokens)
    {p : Token × String} (hp : p ∈ tokens) : ∃ before after,
      text.toList = before ++ p.2.toList ++ after ∧ p.1.start = byteLength before ∧
      p.1.stop = byteLength before + byteLength p.2.toList ∧
      p.2.toList ∈ p.1.kind.pattern ∧ Longest p.2.toList (p.2.toList ++ after) := by
  have hmem := List.mem_map_of_mem (f := fun p => (p.1, p.2.toList)) hp
  obtain ⟨before, after, htext, hstart, hstop, hmatched, hlongest⟩ := Lexes.exists_between h hmem
  rw [hstart, Nat.zero_add] at hstop
  exact ⟨before, after, htext, hstart.trans (Nat.zero_add _), hstop, hmatched, hlongest⟩

theorem Lexing.faithful {tokens : List (Token × String)} (h : Lexing text tokens) :
    Faithful text tokens where
  nonempty p hp := by
    obtain ⟨before, after, -, hstart, hstop, hmatched, -⟩ := h.exists_between hp
    obtain ⟨c, cs, hword⟩ := List.exists_cons_of_ne_nil (ne_nil_of_mem_pattern hmatched)
    have hpos := c.utf8Size_pos
    rw [hword, byteLength_cons] at hstop
    omega
  ordered := List.pairwise_map.mp (Lexes.ordered h)
  boundaries p hp := by
    obtain ⟨before, after, htext, hstart, hstop, -⟩ := h.exists_between hp
    have hfront : text.toList = before ++ (p.2.toList ++ after) := by
      rw [htext, List.append_assoc]
    rw [hstart, hstop, ← byteLength_append]
    exact ⟨isValid_byteLength hfront, isValid_byteLength htext⟩
  slice p hp := by
    obtain ⟨before, after, htext, hstart, hstop, -⟩ := h.exists_between hp
    rw [hstart, hstop, extract_byteLength htext, String.ofList_toList]
  matched p hp := by
    obtain ⟨before, after, -, -, -, hmatched, -⟩ := h.exists_between hp
    exact hmatched
  longest p hp stop hlt hvalid hmatched := by
    obtain ⟨before, after, htext, hstart, hstop, -, hlongest⟩ := h.exists_between hp
    rw [hstop] at hlt
    obtain ⟨more, rest, rfl, hne, rfl⟩ := exists_more htext hlt hvalid
    rw [List.append_assoc, ← List.append_assoc p.2.toList, ← List.append_assoc] at htext
    rw [hstart, extract_byteLength htext, String.toList_ofList] at hmatched
    have hprefix : p.2.toList ++ more <+: p.2.toList ++ (more ++ rest) :=
      ⟨rest, List.append_assoc _ _ _⟩
    have hlength := hlongest _ _ hprefix hmatched
    have hmore := List.length_pos_iff.mpr hne
    rw [List.length_append] at hlength
    omega
  dropped before c after htext hout := by
    have hlist : text.toList = before.toList ++ c :: after.toList := by
      rw [htext]
      simp
    have hstarts : StartsNone (c :: after.toList) := by
      refine Lexes.startsNone h hlist fun p hp => ?_
      obtain ⟨q, hq, rfl⟩ := List.mem_map.mp hp
      rw [byteLength_toList, Nat.zero_add]
      exact hout q hq
    exact ⟨hstarts, hstarts.plain⟩

/-- Scanning is the one way of leftmost and longest matching, and loses nothing of the text but
characters at which no token starts. -/
theorem faithful_scan (text : String) :
    (∀ tokens, Lexing text tokens ↔ tokens = scan text) ∧ Faithful text (scan text) :=
  ⟨fun _ => lexing_iff, (lexing_iff.mpr rfl).faithful⟩

/-- A return is dropped, and the next one belongs to the line feed. -/
example : (scan "é7a\r\r\n").map (fun p => (p.1.kind, p.1.start, p.1.stop)) =
    [(.integer, 2, 3), (.ident, 3, 4), (.newline, 5, 7)] := by
  decide +kernel

end StoreAudit.Token
