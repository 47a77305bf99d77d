import StoreAudit.Proofs.Log.Derivation

/-! Which messages are read back from the line that they are written as. -/
namespace StoreAudit
open Grammar

/-- The purposes that a line can carry: the four known ones, and names of their own that are written
in the characters of a code and do not spell a known one. -/
def PurposeCode.Writes (code : PurposeCode) : Purpose → Prop
  | .request _ | .response _ => True
  | .other name =>
    name ≠ "" ∧ (∀ c ∈ name.toList, code.isCodeChar c) ∧ name ∉ code.table.map Prod.fst

namespace Dialect

/-- What can be written as a line of the dialect and read back. -/
structure Carries (d : Dialect) (event : String) (m : Message) : Prop where
  nonempty : event.toList ≠ []
  letters : ∀ c ∈ event.toList, c.isAlpha
  fits : m.Fits
  key : m.key ≠ []
  purpose : d.code.Writes m.purpose

def versionText (d : Dialect) (version : Option Nat) (rest : List Char) : List Char :=
  match version with
  | none => rest
  | some v => fieldText d.version (toString v).toList rest

theorem toList_render (d : Dialect) (event : String) (m : Message) : (d.render event m).toList =
    (toString m.time).toList ++ (" ".toList ++ (event.toList ++ (" ".toList ++ ("\x7b".toList ++
      fieldText d.id (toString m.id).toList (fieldText d.sender (toString m.sender).toList
      (fieldText d.receiver (toString m.receiver).toList
      (fieldText d.purpose (d.code.encode m.purpose).toList
      (fieldText d.key m.key.render.toList (fieldText d.value m.value.render.toList
      (d.versionText m.version
        (d.ok.toList ++ (":".toList ++ ((toString m.ok).toList ++ "\x7d".toList))))))))))))) := by
  have hbrace : " \x7b".toList = " ".toList ++ "\x7b".toList := rfl
  unfold render
  cases m.version <;>
    simp only [Option.map_none, Option.map_some, Option.toList_none, Option.toList_some,
      versionText, fieldText, List.nil_append, List.cons_append, String.intercalate_cons_cons,
      String.intercalate_singleton, String.toList_append, List.append_assoc, hbrace]

end Dialect

namespace PurposeCode
variable {code : PurposeCode} {purpose : Purpose}

theorem encode_ne_nil (h : code.Writes purpose) : (code.encode purpose).toList ≠ [] := by
  cases purpose with
  | request a => cases code <;> cases a <;> decide
  | response a => cases code <;> cases a <;> decide
  | other name => exact String.toList_eq_nil_iff.not.mpr h.1

theorem isCodeChar_of_mem_encode (h : code.Writes purpose) :
    ∀ c ∈ (code.encode purpose).toList, code.isCodeChar c := by
  cases purpose with
  | request a => exact List.all_eq_true.mp (by cases code <;> cases a <;> rfl)
  | response a => exact List.all_eq_true.mp (by cases code <;> cases a <;> rfl)
  | other name => exact h.2.1

theorem decode_encode (h : code.Writes purpose) : code.decode (code.encode purpose) = purpose := by
  cases purpose with
  | request a => cases code <;> cases a <;> rfl
  | response a => cases code <;> cases a <;> rfl
  | other name =>
    have hnone : code.table.lookup name = none := by
      rw [List.lookup_eq_none_iff]
      intro p hp
      exact bne_iff_ne.mpr fun heq => h.2.2 (heq ▸ List.mem_map_of_mem hp)
    rw [encode, decode, hnone]
    rfl

theorem writes_decode {text : String} (hne : text ≠ "")
    (hall : ∀ c ∈ text.toList, code.isCodeChar c) : code.Writes (code.decode text) := by
  unfold decode
  cases hlookup : code.table.lookup text with
  | none =>
    refine ⟨hne, hall, fun hmem => ?_⟩
    obtain ⟨p, hp, heq⟩ := List.mem_map.mp hmem
    exact bne_iff_ne.mp (List.lookup_eq_none_iff.mp hlookup p hp) heq.symm
  | some purpose =>
    have hknown : ∀ p ∈ code.table, code.Writes p.2 := by
      cases code <;> simp [table, Writes]
    obtain ⟨l, l', htable, -⟩ := List.lookup_eq_some_iff.mp hlookup
    exact hknown (text, purpose) (htable ▸ List.mem_append_cons_self)

end PurposeCode

namespace MessageLine
variable {d : Dialect} {event : String} {m : Message} {cs rest : List Char}

/-- What a dialect carries is written as a line whose parts denote it. -/
theorem exists_derivation (h : d.Carries event m) : ∃ t : Derivation d.code,
    t.text d = (d.render event m).toList ∧ t.message d = m := by
  let numeral (n : Nat) (hn : n < wordLimit) : Numeral × Gap := (.ofNat n hn, .space)
  let purpose : Run d.code.isCodeChar := ⟨(d.code.encode m.purpose).toList,
    PurposeCode.encode_ne_nil h.purpose, PurposeCode.isCodeChar_of_mem_encode h.purpose⟩
  obtain ⟨key, hkeytext, hkey⟩ := exists_numbers h.key h.fits.key
  obtain ⟨value, hvaluetext, hvalue⟩ := exists_numbers? h.fits.value
  obtain ⟨version, hversiontext, hversion⟩ : ∃ version : Option (Numeral × Gap),
      (∀ rest, optionalText (fun v => fieldPhrase d.version v.1.text ++ v.2.text) version ++ rest =
        d.versionText m.version rest) ∧ (version.map fun v => v.1.value) = m.version := by
    cases hv : m.version with
    | none => exact ⟨none, fun _ => rfl, rfl⟩
    | some v =>
      refine ⟨some (numeral v (h.fits.version v hv)), fun rest => ?_, ?_⟩
      · simp only [optionalText, fieldPhrase, Dialect.versionText, fieldText, List.append_assoc]
        rfl
      · exact congrArg some (Numeral.value_ofNat v (h.fits.version v hv))
  refine ⟨{
    time := numeral m.time h.fits.time
    event := (⟨event.toList, h.nonempty, h.letters⟩, .space)
    id := numeral m.id h.fits.id
    sender := numeral m.sender h.fits.sender
    receiver := numeral m.receiver h.fits.receiver
    purpose := (purpose, .space)
    key := (key, .space)
    value := (value, .space)
    version := version
    ok := m.ok }, ?_, ?_⟩
  · rw [Dialect.toList_render, ← hversiontext, ← hkeytext, ← hvaluetext]
    simp only [Derivation.text, fieldPhrase, fieldText, List.flatten_cons, List.flatten_nil,
      List.append_assoc, List.append_nil]
    rfl
  · simp only [Derivation.message, numeral, purpose, Numeral.value_ofNat, String.ofList_toList,
      PurposeCode.decode_encode h.purpose, hkey, hvalue, hversion]

theorem of_grammar (h : grammar d cs = .ok (m, rest)) :
    m.key ≠ [] ∧ d.code.Writes m.purpose := by
  unfold grammar at h
  -- all up to the purpose
  iterate 11 obtain ⟨_, _, -, h⟩ := bind_eq_ok_iff.mp h
  obtain ⟨p, _, hpurpose, h⟩ := bind_eq_ok_iff.mp h
  obtain ⟨_, _, -, h⟩ := bind_eq_ok_iff.mp h
  obtain ⟨key, _, hkey, h⟩ := bind_eq_ok_iff.mp h
  -- all from the key to the closing brace
  iterate 6 obtain ⟨_, _, -, h⟩ := bind_eq_ok_iff.mp h
  cases h
  obtain ⟨_, -, hpurpose⟩ := field_eq_ok_iff.mp hpurpose
  obtain ⟨_, -, hkey⟩ := field_eq_ok_iff.mp hkey
  obtain ⟨ns, -, rfl⟩ := recognises_someWords.sound _ _ _ hkey
  obtain ⟨code, -, rfl⟩ := (recognises_purpose d.code).sound _ _ _ hpurpose
  refine ⟨List.cons_ne_nil _ _, PurposeCode.writes_decode ?_ ?_⟩
  · exact mt String.ofList_eq_empty_iff.mp code.nonempty
  · rw [String.toList_ofList]
    exact code.all

theorem parse_render (hd : d.Readable) (h : d.Carries event m) :
    parse d (d.render event m) = .ok m := by
  obtain ⟨t, htext, rfl⟩ := exists_derivation h
  rw [parse_eq_ok_iff, (recognises_grammar hd).readLine.1]
  exact ⟨⟨t, [], List.forall_mem_nil _⟩, by rw [List.append_nil, htext], rfl⟩

/-- A message is read back from the line that it is written as exactly if it has a key and a purpose
that a line can carry. -/
theorem parse_render_eq_ok_iff (hd : d ∈ [Dialect.numeric, .named]) (hevent : event ≠ "")
    (hletters : ∀ c ∈ event.toList, c.isAlpha) (hm : m.Fits) :
    parse d (d.render event m) = .ok m ↔ m.key ≠ [] ∧ d.code.Writes m.purpose := by
  constructor
  · intro h
    obtain ⟨_, hgrammar⟩ := exists_of_readLine (parse_eq_ok_iff.mp h)
    exact of_grammar hgrammar
  · intro ⟨hkey, hpurpose⟩
    have hne : event.toList ≠ [] := String.toList_eq_nil_iff.not.mpr hevent
    exact parse_render (Dialect.readable_of_mem hd) ⟨hne, hletters, hm, hkey, hpurpose⟩

def notice (name : String) : Message := ⟨5, 0, 1, 2, .other name, [1, 0], [], some 3, true⟩

/-- `7` is no spelling of a known purpose, but `1` is one. -/
theorem parse_render_notice :
    parse .numeric (Dialect.numeric.render "log" (notice "7")) = .ok (notice "7") ∧
      parse .numeric (Dialect.numeric.render "log" (notice "1")) ≠ .ok (notice "1") := by
  have hfits (name : String) : (notice name).Fits :=
    ⟨by simp [notice, wordLimit], by simp [notice, wordLimit], by simp [notice, wordLimit],
      by simp [notice, wordLimit], by simp [notice, Words.Fits, wordLimit],
      by simp [notice, Words.Fits], by simp [notice, wordLimit]⟩
  have hiff (name : String) :
      parse .numeric (Dialect.numeric.render "log" (notice name)) = .ok (notice name) ↔ _ :=
    parse_render_eq_ok_iff List.mem_cons_self (by decide) (List.all_eq_true.mp rfl) (hfits name)
  constructor
  · exact (hiff "7").mpr ⟨by decide, by decide, List.all_eq_true.mp rfl, by decide⟩
  · intro h
    exact ((hiff "1").mp h).2.2.2 (by decide)

end MessageLine
end StoreAudit
