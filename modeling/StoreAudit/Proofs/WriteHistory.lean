import Mathlib.Data.Finset.Card
import StoreAudit.Proofs.Table
import StoreAudit.WriteHistory

/-! What a write history holds for a key: the writes that were recorded for it, in order. Every
answer of the history can be read off the records. -/
namespace StoreAudit

/-- A write to a key, as it is recorded. -/
structure RecordedWrite where
  key : Words
  written : WrittenValue
  deriving DecidableEq, Repr

namespace WriteHistory
variable {h : WriteHistory} {ws : List RecordedWrite} {key : Words}

theorem addTo_eq_add (key : Words) (w : WrittenValue) (buckets : List (Words × List WrittenValue)) :
    addTo key w buckets = Table.add key w buckets := by
  induction buckets with
  | nil => rfl
  | cons bucket buckets ih =>
    by_cases hk : bucket.1 = key <;> simp [addTo, Table.add, hk, ih]

theorem lookup_record (h : WriteHistory) (key value : Words) (version : Option Nat) (k : Words) :
    (h.record key value version).buckets.lookup k =
      if k == key then some (h.entries key ++ [⟨value, version⟩]) else h.buckets.lookup k := by
  rw [record, addTo_eq_add, Table.lookup_add]
  rfl

/-- The keys that count as written are those with entries. -/
def Kept (h : WriteHistory) : Prop := ∀ key, h.isWritten key ↔ h.entries key ≠ []

section Records

/-- Records the writes one after the other. -/
def recordAll (h : WriteHistory) (ws : List RecordedWrite) : WriteHistory :=
  ws.foldl (fun h w => h.record w.key w.written.value w.written.version) h

/-- What was written to the key, in the order of the records. -/
def writtenTo (key : Words) (ws : List RecordedWrite) : List WrittenValue :=
  (ws.filter (·.key == key)).map (·.written)

theorem writtenTo_eq_nil_iff : writtenTo key ws = [] ↔ key ∉ ws.map (·.key) := by
  unfold writtenTo
  rw [List.map_eq_nil_iff, List.filter_eq_nil_iff]
  simp

theorem any_writtenTo_iff (p : WrittenValue → Bool) :
    (writtenTo key ws).any p ↔ ∃ w ∈ ws, w.key = key ∧ p w.written := by
  unfold writtenTo
  rw [List.any_map, List.any_filter, List.any_eq_true]
  simp

theorem writtenTo_concat (w : RecordedWrite) : writtenTo key (ws ++ [w]) =
    if w.key = key then writtenTo key ws ++ [w.written] else writtenTo key ws := by
  by_cases hkey : w.key = key <;> simp [writtenTo, hkey]

/-- The last record of a key is the last of what was written to it. -/
theorem getLast?_writtenTo {before after : List RecordedWrite} {w : RecordedWrite}
    (hafter : ∀ v ∈ after, v.key ≠ w.key) :
    (writtenTo w.key (before ++ w :: after)).getLast? = some w.written := by
  have hnone : after.filter (·.key == w.key) = [] :=
    List.filter_eq_nil_iff.mpr fun v hv => by simp [hafter v hv]
  simp [writtenTo, hnone]

/-- There is one bucket for each key of the records. It holds what was written to the key, in order,
and so it is never empty. -/
structure Reflects (h : WriteHistory) (ws : List RecordedWrite) : Prop where
  nodup : (h.buckets.map Prod.fst).Nodup
  lookup : ∀ key, h.buckets.lookup key =
    if writtenTo key ws = [] then none else some (writtenTo key ws)

theorem reflects_empty : Reflects {} [] where
  nodup := List.nodup_nil
  lookup _ := rfl

theorem Reflects.entries_eq (hh : h.Reflects ws) (key : Words) :
    h.entries key = writtenTo key ws := by
  unfold entries
  rw [hh.lookup]
  split_ifs with hnil
  · exact hnil.symm
  · rfl

theorem Reflects.record (hh : h.Reflects ws) (w : RecordedWrite) :
    (h.record w.key w.written.value w.written.version).Reflects (ws ++ [w]) where
  nodup := by
    unfold WriteHistory.record
    rw [addTo_eq_add]
    exact Table.nodup_labels_add w.key _ hh.nodup
  lookup key := by
    rw [lookup_record, hh.entries_eq, writtenTo_concat]
    by_cases hkey : w.key = key
    · simp [hkey]
    · rw [beq_eq_false_iff_ne.mpr (Ne.symm hkey), if_neg Bool.false_ne_true, if_neg hkey]
      exact hh.lookup key

theorem Reflects.recordAll {past : List RecordedWrite} (hh : h.Reflects past)
    (ws : List RecordedWrite) : (h.recordAll ws).Reflects (past ++ ws) := by
  induction ws generalizing h past with
  | nil =>
    rw [List.append_nil]
    exact hh
  | cons w ws ih =>
    rw [List.append_cons]
    exact ih (hh.record w)

theorem Reflects.isWritten_iff (hh : h.Reflects ws) :
    h.isWritten key ↔ key ∈ ws.map (·.key) := by
  unfold isWritten
  rw [hh.lookup, ← not_iff_not, ← writtenTo_eq_nil_iff]
  split_ifs with hnil <;> simp [hnil]

theorem Reflects.kept (hh : h.Reflects ws) : h.Kept := by
  intro key
  rw [hh.isWritten_iff, hh.entries_eq, Ne, writtenTo_eq_nil_iff, not_not]

theorem Reflects.mem_keys_iff (hh : h.Reflects ws) :
    key ∈ h.buckets.map Prod.fst ↔ key ∈ ws.map (·.key) := by
  rw [← hh.isWritten_iff, isWritten, List.lookup_isSome_iff, List.mem_map]
  constructor
  · rintro ⟨bucket, hbucket, rfl⟩
    exact ⟨bucket, hbucket, beq_self_eq_true _⟩
  · rintro ⟨bucket, hbucket, hkey⟩
    exact ⟨bucket, hbucket, (beq_iff_eq.mp hkey).symm⟩

theorem Reflects.size_eq (hh : h.Reflects ws) : h.size = (ws.map (·.key)).toFinset.card := by
  have hkeys : (h.buckets.map Prod.fst).toFinset = (ws.map (·.key)).toFinset := by
    ext key
    rw [List.mem_toFinset, List.mem_toFinset]
    exact hh.mem_keys_iff
  rw [← hkeys, List.toFinset_card_of_nodup hh.nodup, List.length_map]
  rfl

theorem Reflects.isEmpty_iff (hh : h.Reflects ws) : h.isEmpty ↔ ws = [] := by
  have hkeys : h.buckets.map Prod.fst = [] ↔ ws.map (·.key) = [] := by
    simp only [List.eq_nil_iff_forall_not_mem, hh.mem_keys_iff]
  unfold isEmpty
  rw [List.isEmpty_iff, ← List.map_eq_nil_iff (f := Prod.fst), hkeys, List.map_eq_nil_iff]

end Records

section OfOperations

/-- The successful writes among the operations, in their order. -/
def successfulWrites (ops : List Operation) : List RecordedWrite :=
  (ops.filter fun op => op.isWrite && op.succeeded).map fun op => ⟨op.key, op.value, op.version⟩

theorem ofOperations_eq_recordAll (ops : List Operation) :
    ofOperations ops = recordAll {} (successfulWrites ops) := by
  unfold ofOperations recordAll successfulWrites
  rw [List.foldl_map]

theorem reflects_ofOperations (ops : List Operation) :
    (ofOperations ops).Reflects (successfulWrites ops) := by
  rw [ofOperations_eq_recordAll]
  exact reflects_empty.recordAll (successfulWrites ops)

theorem kept_ofOperations (ops : List Operation) : (ofOperations ops).Kept :=
  (reflects_ofOperations ops).kept

theorem entries_ofOperations (ops : List Operation) (key : Words) :
    (ofOperations ops).entries key =
      (ops.filter fun op => op.isWrite && op.succeeded && op.key == key).map
        fun op => ⟨op.value, op.version⟩ := by
  rw [(reflects_ofOperations ops).entries_eq, writtenTo, successfulWrites, List.filter_map,
    List.map_map, List.filter_filter]
  refine congrArg (List.map _) (List.filter_congr fun op _ => ?_)
  exact Bool.and_comm _ _

theorem mem_entries_ofOperations {ops : List Operation} {key : Words} {w : WrittenValue} :
    w ∈ (ofOperations ops).entries key ↔ ∃ op ∈ ops, op.isWrite ∧ op.succeeded ∧ op.key = key ∧
      op.value = w.value ∧ op.version = w.version := by
  rw [entries_ofOperations, List.mem_map]
  constructor
  · rintro ⟨op, hop, rfl⟩
    simp only [List.mem_filter, Bool.and_eq_true, beq_iff_eq] at hop
    exact ⟨op, hop.1, hop.2.1.1, hop.2.1.2, hop.2.2, rfl, rfl⟩
  · rintro ⟨op, hop, hw, hs, hk, hval, hver⟩
    exact ⟨op, by simp [hop, hw, hs, hk], by rw [hval, hver]⟩

theorem isWritten_ofOperations {ops : List Operation} {key : Words} :
    (ofOperations ops).isWritten key ↔ ∃ op ∈ ops, op.isWrite ∧ op.succeeded ∧ op.key = key := by
  rw [kept_ofOperations ops key]
  constructor
  · intro h
    obtain ⟨w, hw⟩ := List.exists_mem_of_ne_nil _ h
    obtain ⟨op, hop, hwrite, hs, hk, -⟩ := mem_entries_ofOperations.mp hw
    exact ⟨op, hop, hwrite, hs, hk⟩
  · rintro ⟨op, hop, hwrite, hs, hk⟩
    exact List.ne_nil_of_mem (a := ⟨op.value, op.version⟩)
      (mem_entries_ofOperations.mpr ⟨op, hop, hwrite, hs, hk, rfl, rfl⟩)

end OfOperations

/-- The two histories say the same about the key. -/
structure AgreesOn (h h' : WriteHistory) (key : Words) : Prop where
  entries : h.entries key = h'.entries key
  isWritten : h.isWritten key = h'.isWritten key
  latest? : h.latest? key = h'.latest? key
  contains : ∀ value, h.contains key value = h'.contains key value
  containsVersion : ∀ value version,
    h.containsVersion key value version = h'.containsVersion key value version

/-- What is recorded for a key leaves the answers about another. -/
theorem agreesOn_record (h : WriteHistory) {k : Words} (value : Words) (version : Option Nat)
    (hne : key ≠ k) : (h.record k value version).AgreesOn h key := by
  have hlookup : (h.record k value version).buckets.lookup key = h.buckets.lookup key := by
    rw [lookup_record, beq_eq_false_iff_ne.mpr hne, if_neg Bool.false_ne_true]
  have hentries : (h.record k value version).entries key = h.entries key :=
    congrArg (Option.getD · []) hlookup
  refine ⟨hentries, congrArg Option.isSome hlookup, ?_, fun v => ?_, fun v ver => ?_⟩
  · unfold latest?
    rw [hentries]
  · unfold contains
    rw [hentries]
  · unfold containsVersion
    rw [hentries]

/-- The history answers as the records `ws` say. For each key it has the writes to it, duplicates
included, of which the last is the latest. Over all keys it counts each once. -/
structure Answers (h : WriteHistory) (ws : List RecordedWrite) : Prop where
  entries : ∀ key, h.entries key = (ws.filter (·.key == key)).map (·.written)
  isWritten : ∀ key, h.isWritten key ↔ h.entries key ≠ []
  isSome_latest? : ∀ key, (h.latest? key).isSome ↔ h.entries key ≠ []
  latest? : ∀ before w after, ws = before ++ w :: after → (∀ v ∈ after, v.key ≠ w.key) →
    h.latest? w.key = some w.written.value
  contains : ∀ key value, h.contains key value ↔ ∃ w ∈ ws, w.key = key ∧ w.written.value = value
  containsVersion : ∀ key value version, h.containsVersion key value version ↔
    ∃ w ∈ ws, w.key = key ∧ w.written.value = value ∧ w.written.version = version
  size : h.size = (ws.map (·.key)).toFinset.card
  isEmpty : h.isEmpty ↔ ws = []

theorem Reflects.answers (hh : h.Reflects ws) : h.Answers ws where
  entries := hh.entries_eq
  isWritten := hh.kept
  isSome_latest? key := by
    unfold WriteHistory.latest?
    rw [Option.isSome_map, List.getLast?_isSome]
  latest? before w after hws hafter := by
    unfold WriteHistory.latest?
    rw [hh.entries_eq, hws, getLast?_writtenTo hafter]
    rfl
  contains key value := by
    unfold WriteHistory.contains
    rw [hh.entries_eq, any_writtenTo_iff]
    simp
  containsVersion key value version := by
    unfold WriteHistory.containsVersion
    rw [hh.entries_eq, any_writtenTo_iff]
    simp
  size := hh.size_eq
  isEmpty := hh.isEmpty_iff

/-- A history answers as all its records say, where those that it was started with are the
successful writes of some operations, or none. A further record is seen under its own key only. -/
theorem answers_recordAll (ops : List Operation) (ws : List RecordedWrite) :
    (recordAll {} ws).Answers ws ∧
      ((ofOperations ops).recordAll ws).Answers (successfulWrites ops ++ ws) ∧
      ∀ (h : WriteHistory) (w : RecordedWrite) (key : Words), key ≠ w.key →
        (h.record w.key w.written.value w.written.version).AgreesOn h key := by
  refine ⟨?_, ?_, fun h w key hne => ?_⟩
  · exact (reflects_empty.recordAll ws).answers
  · exact ((reflects_ofOperations ops).recordAll ws).answers
  · exact agreesOn_record h w.written.value w.written.version hne

/-- The failed write leaves its key without entries, and a value that is written again stands in
the history twice. -/
theorem answers_recordAll_twice :
    let failed : Operation := ⟨0, .write, [1], [8], 0, 3, none, .failure⟩
    let write : Operation := ⟨1, .write, [2], [7], 4, 6, some 1, .success⟩
    let again : RecordedWrite := ⟨[2], [7], some 3⟩
    let h := (ofOperations [failed, write]).recordAll [again]
    h.Answers [⟨[2], [7], some 1⟩, again] ∧ [2] ≠ [1] ∧ (h.record [1] [9] none).AgreesOn h [2] := by
  intro failed write again h
  obtain ⟨-, hanswers, hother⟩ := answers_recordAll [failed, write] [again]
  exact ⟨hanswers, by decide, hother h ⟨[1], [9], none⟩ [2] (by decide)⟩

end WriteHistory
end StoreAudit
