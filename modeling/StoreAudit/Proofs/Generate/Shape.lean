import StoreAudit.Proofs.Generate.Execution
import StoreAudit.Proofs.Generate.History

/-! What every generated history is like, whatever was drawn. -/
namespace StoreAudit.Generate
open StoreAudit.Random

/-- A history of so many clients with so many operations each, over so many keys. -/
structure Shaped (p : Params) (ops : List ClientOperation) : Prop where
  length : ops.length = p.keys + p.clients * p.operations
  answered : ∀ op ∈ ops, op.operation.succeeded ∧ op.operation.version.isSome
  timed : ∀ op ∈ ops, op.operation.start < op.operation.finish
  keyed : ∀ op ∈ ops, ∃ key < p.keys, op.operation.key = [key]
  ids : ops.map (·.operation.id) = List.range ops.length
  finishes : ops.Pairwise fun t u => t.operation.finish ≤ u.operation.finish
  clients : ops.Pairwise fun t u => t.client = u.client → t.operation.Precedes u.operation
  versions : ∀ key < p.keys, ∃ m, 1 ≤ m ∧
    ((ops.filter (·.writes key)).map (·.operation.version)).Perm ((List.range' 1 m).map some)
  values : ((ops.filter (·.operation.isWrite)).map (·.operation.value)).Nodup
  sources : ∀ r ∈ ops, r.operation.isRead → ∃ w ∈ ops, w.SourceOf r

/-- All operations as they were planned. -/
def slots {σ : Type} (d : Draws σ) (p : Params) (s : σ) : List Slot :=
  (schedule d p s).1.map Planned.slot

section Shape
variable {σ : Type} {d : Draws σ} {p : Params}

theorem supplied_schedule (hd : d.InRange) (hkeys : 0 < p.keys) (s : σ) :
    Supplied (List.replicate p.keys []) (schedule d p s).1 where
  sorted := pairwise_schedule d p s
  written _ hq haction := .inr (exists_write_lt_point hd hkeys hq haction)

theorem map_slot_carriedOut (hd : d.InRange) (hkeys : 0 < p.keys) (s : σ) :
    (carriedOut d p s).map (·.issued.slot) = slots d p s :=
  map_slot_execute d p.staleChance hd _ _ _ _ (key_lt_length_of_mem_schedule hd hkeys s)
    (supplied_schedule hd hkeys s)

theorem map_slot_operations_perm (hd : d.InRange) (hkeys : 0 < p.keys) (s : σ) :
    ((operations d p s).map (·.slot)).Perm (slots d p s) := by
  have hperm := map_filter_operations_perm d s hkeys (fun _ => true) (·.slot) (fun _ _ => rfl)
    fun _ _ => rfl
  rwa [List.filter_true, List.filter_true, map_slot_carriedOut hd hkeys] at hperm

theorem exists_slot_eq (hd : d.InRange) (hkeys : 0 < p.keys) {s : σ} {op : ClientOperation}
    (hop : op ∈ operations d p s) : ∃ q ∈ (schedule d p s).1, q.slot = op.slot :=
  List.mem_map.mp ((map_slot_operations_perm hd hkeys s).subset (List.mem_map_of_mem hop))

theorem start_lt_finish_operations (hd : d.InRange) (hkeys : 0 < p.keys) (s : σ) :
    ∀ op ∈ operations d p s, op.operation.start < op.operation.finish := by
  intro op hop
  obtain ⟨q, hq, hslot⟩ := exists_slot_eq hd hkeys hop
  have hlt : q.slot.start < q.slot.finish := schedule_start_lt_finish d p s q hq
  rwa [hslot] at hlt

/-- Operations of one client do not overlap, so the order in which they end is that in which they
precede one another. -/
theorem pairwise_precedes_operations (hd : d.InRange) (hkeys : 0 < p.keys) (s : σ) :
    (operations d p s).Pairwise fun t u => t.client = u.client →
      t.operation.Precedes u.operation := by
  have hslots : (slots d p s).Pairwise Slot.Apart :=
    List.pairwise_map.mpr (pairwise_apart_schedule d p s)
  have hapart := ((map_slot_operations_perm hd hkeys s).pairwise_iff Slot.Apart.symm).mpr hslots
  rw [List.pairwise_map] at hapart
  refine ((pairwise_finish_operations d p s).and hapart).imp_of_mem ?_
  rintro t u ht - ⟨hfinish, hapart⟩ hclient
  rcases hapart hclient with hlt | hlt
  · exact hlt
  · -- `u` would be over before `t` starts, but ends no earlier than `t`.
    have ht := start_lt_finish_operations hd hkeys s t ht
    simp only [ClientOperation.slot] at hlt
    omega

theorem versions_operations (hd : d.InRange) {key : Nat} (hkey : key < p.keys) (s : σ) : ∃ m,
    1 ≤ m ∧ (((operations d p s).filter (·.writes key)).map (·.operation.version)).Perm
      ((List.range' 1 m).map some) := by
  have hkeys := Nat.zero_lt_of_lt hkey
  obtain ⟨final, hrun⟩ := exists_run hd hkeys s
  have hversions := hrun.map_version key
  rw [commitsOf_replicate] at hversions
  refine ⟨_, ?_, (map_filter_operations_perm d s hkeys (·.writes key) (·.operation.version)
    (fun _ _ => rfl) fun _ _ => rfl).trans (.of_eq hversions)⟩
  have hfirst : (firstWrite key).slot ∈ (carriedOut d p s).map (·.issued.slot) := by
    rw [map_slot_carriedOut hd hkeys]
    exact List.mem_map_of_mem ((mem_schedule d p).mpr (.inl ⟨key, hkey, rfl⟩))
  obtain ⟨w, hw, hslot⟩ := List.mem_map.mp hfirst
  have hwrites : w.issued.writes key =
      (w.issued.slot.action == .write && w.issued.slot.key == [key]) := rfl
  rw [hslot] at hwrites
  exact List.countP_pos_iff.mpr ⟨w, hw, hwrites.trans (by simp [Planned.slot, firstWrite])⟩

theorem nodup_values_operations (hd : d.InRange) (hkeys : 0 < p.keys) (s : σ) :
    (((operations d p s).filter (·.operation.isWrite)).map (·.operation.value)).Nodup := by
  have hperm := map_filter_operations_perm d s hkeys (·.operation.isWrite) (·.operation.value)
    (fun _ _ => rfl) fun _ _ => rfl
  have hvalues := map_value_execute d p.staleChance (schedule d p s).1 0
    (List.replicate p.keys []) (schedule d p s).2 (key_lt_length_of_mem_schedule hd hkeys s)
  rw [hperm.nodup_iff]
  unfold carriedOut
  exact hvalues ▸ List.Nodup.map (fun _ _ => List.singleton_inj.mp) List.nodup_range'

theorem sources_operations (hd : d.InRange) (hkeys : 0 < p.keys) (s : σ) :
    ∀ r ∈ operations d p s, r.operation.isRead → ∃ w ∈ operations d p s, w.SourceOf r := by
  intro r hr hread
  obtain ⟨e, he, i, rfl⟩ := exists_carriedOut d s hkeys hr
  obtain ⟨final, hrun⟩ := exists_run hd hkeys s
  rcases hrun.exists_source (pairwise_schedule_start_le_finish hd hkeys s) he hread with
    ⟨q, -, c, hc, -⟩ | ⟨w, hw, hsource⟩
  · rw [commitsOf_replicate] at hc
    exact absurd hc List.not_mem_nil
  · obtain ⟨j, hj⟩ := exists_mem_operations d s hkeys hw
    exact ⟨_, hj, hsource.isWrite, hsource.key, hsource.value, hsource.version,
      hsource.start_le_finish⟩

theorem answered_operations (hd : d.InRange) (hkeys : 0 < p.keys) (s : σ) :
    ∀ op ∈ operations d p s, op.operation.succeeded ∧ op.operation.version.isSome := by
  intro op hop
  obtain ⟨e, he, i, rfl⟩ := exists_carriedOut d s hkeys hop
  obtain ⟨final, hrun⟩ := exists_run hd hkeys s
  obtain ⟨q, -, c, -, hexecute⟩ := hrun.exists_commit he
  rw [hexecute]
  exact ⟨rfl, rfl⟩

end Shape

/-- A history with keys has a shape that does not depend on what was drawn, and every operation that
was planned is carried out. -/
theorem shaped_operations {σ : Type} {d : Draws σ} (hd : d.InRange) {p : Params}
    (hkeys : 0 < p.keys) (s : σ) :
    Shaped p (operations d p s) ∧ ((operations d p s).map (·.slot)).Perm (slots d p s) := by
  have hslots := map_slot_operations_perm hd hkeys s
  refine ⟨?_, hslots⟩
  constructor
  case length =>
    have hlength := hslots.length_eq
    rwa [slots, List.length_map, List.length_map, length_schedule] at hlength
  case answered => exact answered_operations hd hkeys s
  case timed => exact start_lt_finish_operations hd hkeys s
  case keyed =>
    intro op hop
    obtain ⟨q, hq, hslot⟩ := exists_slot_eq hd hkeys hop
    exact ⟨q.key, (schedule_within hd hkeys s q hq).key_lt, congrArg Slot.key hslot.symm⟩
  case ids =>
    have hids := map_id_operations d p s
    rwa [List.map_map, List.length_map] at hids
  case finishes => exact pairwise_finish_operations d p s
  case clients => exact pairwise_precedes_operations hd hkeys s
  case versions => exact fun key hkey => versions_operations hd hkey s
  case values => exact nodup_values_operations hd hkeys s
  case sources => exact sources_operations hd hkeys s

theorem shaped_seeded : Shaped { clients := 3, keys := 2, operations := 5 }
    (seeded { clients := 3, keys := 2, operations := 5 } 7) :=
  (shaped_operations Stream.draws_inRange (by decide) _).1

end StoreAudit.Generate
