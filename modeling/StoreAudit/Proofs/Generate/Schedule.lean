import Mathlib.Data.Prod.Lex
import StoreAudit.Generate.Schedule
import StoreAudit.Proofs.Random
import StoreAudit.Proofs.Sorting

/-! Every planned operation takes effect within its own time, and the schedule goes by those
points. No client is ever busy with two operations, and every key is written before it is read. -/
namespace StoreAudit.Generate
open StoreAudit.Random

/-- The point of effect lies within the time of the operation, and the key is one of so many. -/
structure Planned.Within (keys : Nat) (p : Planned) : Prop where
  start_le_point : p.start ≤ p.point
  point_le_finish : p.point ≤ p.finish
  key_lt : p.key < keys

theorem firstWrite_within {key keys : Nat} (h : key < keys) : (firstWrite key).Within keys where
  start_le_point := Nat.le_refl _
  point_le_finish := Nat.le_succ _
  key_lt := h

variable {σ : Type} {d : Draws σ} {p : Params}

theorem planClient_within (hd : d.InRange) (hkeys : 0 < p.keys) (client n clock : Nat) (s : σ) :
    ∀ q ∈ (planClient d p client n clock s).1, q.Within p.keys := by
  induction n generalizing clock s with
  | zero => simp [planClient]
  | succ n ih =>
    intro q hq
    simp only [planClient, List.mem_cons] at hq
    rcases hq with rfl | hq
    · refine ⟨Nat.le_add_right .., Nat.add_le_add_left ?_ clock, hd.below_lt _ _ hkeys⟩
      have hdelay := hd.below_lt (clock + (1 + (d.below maxDuration s).1) - clock + 1)
        (d.below maxDuration s).2 (Nat.succ_pos _)
      rw [Nat.add_sub_cancel_left] at hdelay ⊢
      exact Nat.le_of_lt_succ hdelay
    · exact ih _ _ q hq

theorem planClients_within (hd : d.InRange) (hkeys : 0 < p.keys) (clients : List Nat) (s : σ) :
    ∀ q ∈ (planClients d p clients s).1, q.Within p.keys := by
  induction clients generalizing s with
  | nil => simp [planClients]
  | cons client clients ih =>
    intro q hq
    simp only [planClients, List.mem_append] at hq
    rcases hq with hq | hq
    · exact planClient_within hd hkeys _ _ _ _ q hq
    · exact ih _ q hq

theorem schedule_within (hd : d.InRange) (hkeys : 0 < p.keys) (s : σ) :
    ∀ q ∈ (schedule d p s).1, q.Within p.keys := by
  intro q hq
  simp only [schedule, List.mem_mergeSort, List.mem_append, List.mem_map, List.mem_range] at hq
  rcases hq with ⟨key, hkey, rfl⟩ | hq
  · exact firstWrite_within hkey
  · exact planClients_within hd hkeys _ s q hq

theorem planClient_client (d : Draws σ) (p : Params) (client n clock : Nat) (s : σ) :
    ∀ q ∈ (planClient d p client n clock s).1, q.client = client := by
  induction n generalizing clock s with
  | zero => simp [planClient]
  | succ n ih =>
    intro q hq
    simp only [planClient, List.mem_cons] at hq
    rcases hq with rfl | hq
    · rfl
    · exact ih _ _ q hq

theorem planClients_client (d : Draws σ) (p : Params) (clients : List Nat) (s : σ) :
    ∀ q ∈ (planClients d p clients s).1, q.client ∈ clients := by
  induction clients generalizing s with
  | nil => simp [planClients]
  | cons client clients ih =>
    intro q hq
    simp only [planClients, List.mem_append] at hq
    rcases hq with hq | hq
    · rw [planClient_client _ _ _ _ _ _ q hq]
      exact List.mem_cons_self
    · exact List.mem_cons_of_mem _ (ih _ q hq)

/-- Client 0 makes the first writes, also if there are no clients. -/
theorem schedule_client (d : Draws σ) (p : Params) (s : σ) :
    ∀ q ∈ (schedule d p s).1, q.client = 0 ∨ q.client < p.clients := by
  intro q hq
  simp only [schedule, List.mem_mergeSort, List.mem_append, List.mem_map] at hq
  rcases hq with ⟨key, -, rfl⟩ | hq
  · exact .inl rfl
  · exact .inr (List.mem_range.mp (planClients_client _ _ _ _ q hq))

def Planned.turn (p : Planned) : ℕ ×ₗ ℕ ×ₗ ℕ := toLex (p.point, toLex (p.start, p.client))

theorem Planned.le_iff (p q : Planned) : p.le q ↔ p.turn ≤ q.turn := by
  simp [Planned.le, turn, Prod.Lex.toLex_le_toLex]

theorem pairwise_schedule (d : Draws σ) (p : Params) (s : σ) :
    (schedule d p s).1.Pairwise fun q r => q.point ≤ r.point := by
  have hsorted := pairwise_key_mergeSort Planned.le_iff
    ((List.range p.keys).map firstWrite ++ (planClients d p (List.range p.clients) s).1)
  exact hsorted.imp fun {q r} hqr => Prod.Lex.monotone_fst q.turn r.turn hqr

/-- Nothing that is scheduled later was over before. -/
theorem pairwise_schedule_start_le_finish (hd : d.InRange) (hkeys : 0 < p.keys) (s : σ) :
    (schedule d p s).1.Pairwise fun q r => q.start ≤ r.finish := by
  refine (pairwise_schedule d p s).imp_of_mem fun {q r} hq hr hpoint => ?_
  have hstart := (schedule_within hd hkeys s q hq).start_le_point
  have hfinish := (schedule_within hd hkeys s r hr).point_le_finish
  omega

/-- An operation before anything is known about its value. -/
structure Slot where
  client : Nat
  start : Nat
  finish : Nat
  action : Action
  key : Words

def Planned.slot (p : Planned) : Slot where
  client := p.client
  start := p.start
  finish := p.finish
  action := p.action
  key := [p.key]

/-- Operations of one client do not overlap, not even by an instant. -/
def Slot.Apart (a b : Slot) : Prop :=
  a.client = b.client → a.finish < b.start ∨ b.finish < a.start

theorem Slot.Apart.symm {a b : Slot} (h : a.Apart b) : b.Apart a :=
  fun hclient => (h hclient.symm).symm

section Plan

variable (d : Draws σ) (p : Params)

theorem length_planClient (client n clock : Nat) (s : σ) :
    (planClient d p client n clock s).1.length = n := by
  induction n generalizing clock s with
  | zero => rfl
  | succ n ih => simp [planClient, ih]

theorem length_planClients (clients : List Nat) (s : σ) :
    (planClients d p clients s).1.length = clients.length * p.operations := by
  induction clients generalizing s with
  | nil => simp [planClients]
  | cons client clients ih =>
    simp [planClients, length_planClient, ih, Nat.add_mul, Nat.add_comm]

theorem length_schedule (s : σ) :
    (schedule d p s).1.length = p.keys + p.clients * p.operations := by
  simp [schedule, length_planClients]

theorem planClient_start (client n clock : Nat) (s : σ) :
    ∀ q ∈ (planClient d p client n clock s).1, clock ≤ q.start ∧ q.start < q.finish := by
  induction n generalizing clock s with
  | zero => simp [planClient]
  | succ n ih =>
    intro q hq
    simp only [planClient, List.mem_cons] at hq
    rcases hq with rfl | hq
    · exact ⟨Nat.le_refl _, by dsimp only; omega⟩
    · obtain ⟨hclock, hfinish⟩ := ih _ _ q hq
      exact ⟨by omega, hfinish⟩

theorem planClients_start (clients : List Nat) (s : σ) :
    ∀ q ∈ (planClients d p clients s).1, 2 * p.keys ≤ q.start ∧ q.start < q.finish := by
  induction clients generalizing s with
  | nil => simp [planClients]
  | cons client clients ih =>
    intro q hq
    simp only [planClients, List.mem_append] at hq
    rcases hq with hq | hq
    · obtain ⟨hclock, hfinish⟩ := planClient_start d p client _ _ _ q hq
      exact ⟨by omega, hfinish⟩
    · exact ih _ q hq

/-- The clock of a client never goes back. -/
theorem pairwise_planClient (client n clock : Nat) (s : σ) :
    (planClient d p client n clock s).1.Pairwise fun q r => q.finish < r.start := by
  induction n generalizing clock s with
  | zero => exact .nil
  | succ n ih =>
    refine List.pairwise_cons.mpr ⟨fun r hr => ?_, ih _ _⟩
    have hclock := (planClient_start d p client n _ _ r hr).1
    dsimp only
    omega

theorem pairwise_planClients {clients : List Nat} (hclients : clients.Nodup) (s : σ) :
    (planClients d p clients s).1.Pairwise fun q r => q.slot.Apart r.slot := by
  induction clients generalizing s with
  | nil => exact .nil
  | cons client clients ih =>
    obtain ⟨hnew, hclients⟩ := List.nodup_cons.mp hclients
    refine List.pairwise_append.mpr ⟨?_, ih hclients _, fun q hq r hr hclient => ?_⟩
    · exact (pairwise_planClient d p client _ _ _).imp fun hlt _ => .inl hlt
    · have hq := planClient_client d p client _ _ _ q hq
      have hr := planClients_client d p clients _ r hr
      rw [show r.client = client from hclient.symm.trans hq] at hr
      exact absurd hr hnew

theorem mem_schedule {s : σ} {q : Planned} : q ∈ (schedule d p s).1 ↔
    (∃ key < p.keys, firstWrite key = q) ∨ q ∈ (planClients d p (List.range p.clients) s).1 := by
  simp [schedule]

theorem schedule_start_lt_finish (s : σ) : ∀ q ∈ (schedule d p s).1, q.start < q.finish := by
  intro q hq
  rcases (mem_schedule d p).mp hq with ⟨key, -, rfl⟩ | hq
  · exact Nat.lt_succ_self _
  · exact (planClients_start d p _ s q hq).2

/-- The first writes follow one another as well, and the clients start after them. -/
theorem pairwise_apart_schedule (s : σ) :
    (schedule d p s).1.Pairwise fun q r => q.slot.Apart r.slot := by
  have hsymm {q r : Planned} (h : q.slot.Apart r.slot) : r.slot.Apart q.slot := h.symm
  have hperm := List.mergeSort_perm
    ((List.range p.keys).map firstWrite ++ (planClients d p (List.range p.clients) s).1) Planned.le
  refine (hperm.pairwise_iff hsymm).mpr (List.pairwise_append.mpr ⟨?_, ?_, ?_⟩)
  · refine List.pairwise_map.mpr (List.pairwise_lt_range.imp fun {k k'} hlt _ => .inl ?_)
    simp only [Planned.slot, firstWrite]
    omega
  · exact pairwise_planClients d p List.nodup_range s
  · intro w hw r hr _
    obtain ⟨key, hkey, rfl⟩ := List.mem_map.mp hw
    have hkey := List.mem_range.mp hkey
    have hstart := (planClients_start d p _ s r hr).1
    refine .inl ?_
    simp only [Planned.slot, firstWrite]
    omega

end Plan

/-- Every key that is read is written by a first write, which takes effect before. -/
theorem exists_write_lt_point (hd : d.InRange) (hkeys : 0 < p.keys) {s : σ} {q : Planned}
    (hq : q ∈ (schedule d p s).1) (haction : q.action = .read) : ∃ w ∈ (schedule d p s).1,
      w.action = .write ∧ w.key = q.key ∧ w.point < q.point := by
  have hwithin := schedule_within hd hkeys s q hq
  rcases (mem_schedule d p).mp hq with ⟨key, -, rfl⟩ | hown
  · cases haction
  · have hstart := (planClients_start d p _ s q hown).1
    have hfirst := (mem_schedule d p (s := s)).mpr (.inl ⟨q.key, hwithin.key_lt, rfl⟩)
    refine ⟨firstWrite q.key, hfirst, rfl, rfl, ?_⟩
    have hpoint := hwithin.start_le_point
    have hkey := hwithin.key_lt
    simp only [firstWrite]
    omega

end StoreAudit.Generate
