import Mathlib.Data.List.Basic
import StoreAudit.Text.Lines

/-! The lines of a text, and those of a text that was put together from lines. -/
namespace StoreAudit.Text

theorem toList_loop_eq (bytes : ByteArray) (i : Nat) (taken : List UInt8) :
    ByteArray.toList.loop bytes i taken = taken.reverse ++ bytes.data.toList.drop i := by
  fun_induction ByteArray.toList.loop bytes i taken with
  | case1 i taken h ih =>
    have hi : i < bytes.data.toList.length := by simpa using h
    rw [ih, List.drop_eq_getElem_cons hi]
    simp [ByteArray.get!, h]
  | case2 i taken h =>
    rw [List.drop_eq_nil_of_le (by simpa using Nat.le_of_not_lt h), List.append_nil]

theorem toList_toByteArray (bytes : List UInt8) : bytes.toByteArray.toList = bytes := by
  rw [ByteArray.toList, toList_loop_eq, List.drop_zero, List.toList_data_toByteArray]
  rfl

theorem toList_toUTF8 (s : String) : s.toUTF8.toList = s.toList.flatMap String.utf8EncodeChar := by
  rw [String.toUTF8_eq_toByteArray, ← String.utf8Encode_toList, List.utf8Encode, toList_toByteArray]

theorem fromUTF8?_toUTF8 (s : String) : String.fromUTF8? s.toUTF8.toList.toByteArray = some s := by
  have hbytes : s.toUTF8.toList.toByteArray = s.toByteArray := by
    rw [toList_toUTF8, ← String.utf8Encode_toList, List.utf8Encode]
  rw [hbytes, String.fromUTF8?, dif_pos s.isValidUTF8]
  rfl

/-- Only an ASCII character has a byte below 128, its own code. -/
theorem mem_utf8EncodeChar_iff {b : UInt8} (hb : b < 128) {c : Char} :
    b ∈ String.utf8EncodeChar c ↔ c.toNat = b.toNat := by
  have hb : b.toNat < 128 := UInt8.lt_iff_toNat_lt.mp hb
  have hc : c.val.toNat = c.toNat := rfl
  unfold String.utf8EncodeChar
  simp only [hc]
  split_ifs
  all_goals
    simp only [List.mem_cons, List.not_mem_nil, or_false, ← UInt8.toNat_inj, UInt8.toNat_ofNat']
    omega

/-- The lines of a text, told by its characters. -/
def linesOf (text : String) : List String :=
  let parts := text.toList.splitOn '\n'
  let last := parts.getLastD []
  let closed := parts.dropLast.map fun l => if l.getLast? = some '\r' then l.dropLast else l
  (closed ++ if last = [] then [] else [last]).map String.ofList

theorem splitOn_append_of_notMem {l : List UInt8} (h : 10 ∉ l) (rest : List UInt8) :
    (l ++ rest).splitOn 10 = (rest.splitOn 10).modifyHead (l ++ ·) := by
  induction l with
  | nil => exact (congrFun List.modifyHead_id _).symm
  | cons b l ih =>
    have hb : (b == 10) = false := beq_eq_false_iff_ne.mpr (List.ne_of_not_mem_cons h).symm
    rw [List.cons_append, List.splitOn_cons_eq_if_modifyHead, hb, if_neg Bool.false_ne_true,
      ih (List.not_mem_of_not_mem_cons h), List.modifyHead_modifyHead]
    rfl

/-- The byte 10 stands in no character but the line feed. -/
theorem splitOn_flatMap_utf8EncodeChar (cs : List Char) :
    (cs.flatMap String.utf8EncodeChar).splitOn 10 =
      (cs.splitOn '\n').map (·.flatMap String.utf8EncodeChar) := by
  induction cs with
  | nil => rfl
  | cons c cs ih =>
    rw [List.flatMap_cons, List.splitOn_cons_eq_if_modifyHead]
    split_ifs with hc
    · obtain rfl := beq_iff_eq.mp hc
      rw [List.map_cons, ← ih]
      rfl
    · have hfeed : 10 ∉ String.utf8EncodeChar c := by
        rw [mem_utf8EncodeChar_iff (by decide)]
        exact fun h => hc (beq_iff_eq.mpr (Char.toNat_inj.mp h))
      obtain ⟨l, ls, hsplit⟩ := List.exists_cons_of_ne_nil (List.splitOn_ne_nil '\n' cs)
      rw [splitOn_append_of_notMem hfeed, ih, hsplit]
      rfl

theorem utf8EncodeChar_ne_nil (c : Char) : String.utf8EncodeChar c ≠ [] :=
  List.ne_nil_of_length_pos (String.length_utf8EncodeChar c ▸ c.utf8Size_pos)

/-- The byte 13 stands in no character but the carriage return. -/
theorem dropReturn_flatMap_utf8EncodeChar (l : List Char) :
    dropReturn (l.flatMap String.utf8EncodeChar) =
      (if l.getLast? = some '\r' then l.dropLast else l).flatMap String.utf8EncodeChar := by
  rcases List.eq_nil_or_concat l with rfl | ⟨init, c, rfl⟩
  · rfl
  · rw [List.concat_eq_append, List.getLast?_concat, List.dropLast_concat, List.flatMap_append,
      List.flatMap_singleton, dropReturn, List.getLast?_append_of_ne_nil _ (utf8EncodeChar_ne_nil c)]
    by_cases hc : c = '\r'
    · subst hc
      exact List.dropLast_concat
    · have hreturn : (String.utf8EncodeChar c).getLast? ≠ some 13 := by
        intro h
        have hmem := (mem_utf8EncodeChar_iff (by decide)).mp (List.mem_of_getLast? h)
        exact hc (Char.toNat_inj.mp hmem)
      rw [if_neg hreturn, if_neg fun h => hc (Option.some.inj h), List.flatMap_append,
        List.flatMap_singleton]

/-- A text has no line that cannot be read as text. -/
theorem lines_toUTF8 (text : String) : lines text.toUTF8 = (linesOf text).map some := by
  have hdecode (l : List Char) :
      String.fromUTF8? (l.flatMap String.utf8EncodeChar).toByteArray = some (String.ofList l) := by
    have h := fromUTF8?_toUTF8 (String.ofList l)
    rwa [toList_toUTF8, String.toList_ofList] at h
  have hempty (l : List Char) : l.flatMap String.utf8EncodeChar = [] ↔ l = [] := by
    cases l <;> simp
  have hlast (ls : List (List Char)) : (ls.map (·.flatMap String.utf8EncodeChar)).getLastD [] =
      (ls.getLastD []).flatMap String.utf8EncodeChar :=
    List.getLastD_map (f := (·.flatMap String.utf8EncodeChar)) (a := [])
  simp only [lines, splitLines, linesOf, toList_toUTF8, splitOn_flatMap_utf8EncodeChar, hlast,
    hempty, ← List.map_dropLast, List.map_map, List.map_append]
  congr 1
  · refine List.map_congr_left fun l _ => ?_
    simp only [Function.comp_apply, dropReturn_flatMap_utf8EncodeChar, hdecode]
  · split_ifs
    · rfl
    · simp only [List.map_singleton, hdecode, Function.comp_apply]

theorem splitOn_flatMap {α : Type} [BEq α] [LawfulBEq α] {a : α} {ls : List (List α)}
    (h : ∀ l ∈ ls, a ∉ l) : (ls.flatMap (· ++ [a])).splitOn a = ls ++ [[]] := by
  induction ls with
  | nil => rfl
  | cons l ls ih =>
    obtain ⟨hl, hls⟩ := List.forall_mem_cons.mp h
    rw [List.flatMap_cons, List.append_assoc, List.singleton_append,
      List.splitOn_append_cons_self_of_not_mem hl, ih hls]
    rfl

/-- Lines without line feeds and carriage returns, each with a line feed after it, are read as these
lines. -/
theorem lines_join {ls : List String} (h : ∀ l ∈ ls, '\n' ∉ l.toList ∧ '\r' ∉ l.toList) :
    lines (String.join (ls.map (· ++ "\n"))).toUTF8 = ls.map some := by
  have hchars : (String.join (ls.map (· ++ "\n"))).toList =
      (ls.map String.toList).flatMap (· ++ ['\n']) := by
    simp only [String.toList_join, List.flatMap_map, String.toList_append]
    rfl
  have hfeed : ∀ l ∈ ls.map String.toList, '\n' ∉ l :=
    List.forall_mem_map.mpr fun l hl => (h l hl).1
  have hkept (l : String) (hl : l ∈ ls) : String.ofList
      (if l.toList.getLast? = some '\r' then l.toList.dropLast else l.toList) = l := by
    rw [if_neg fun hlast => (h l hl).2 (List.mem_of_getLast? hlast), String.ofList_toList]
  have hlines : linesOf (String.join (ls.map (· ++ "\n"))) = ls := by
    rw [linesOf, hchars, splitOn_flatMap hfeed, List.getLastD_concat, List.dropLast_concat,
      if_pos rfl, List.append_nil, List.map_map, List.map_map]
    exact (List.map_congr_left hkept).trans (List.map_id ls)
  rw [lines_toUTF8, hlines]

end StoreAudit.Text
