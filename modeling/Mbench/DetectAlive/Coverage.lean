import Mbench.DetectAlive.Addresses
import Mathlib.Order.Interval.Finset.Nat

/-! How often `worker` contacts each address of the range. -/

namespace Mbench.DetectAlive
open Library

def sources (addr : Nat) : Finset Nat := (Finset.Ico firstIpAddr (addr + 1)).filter fun ipv4addr => adjusted ipv4addr = addr

def carries (addr : Nat) : Finset Nat := if addr % 256 = 12 ∧ addr ≠ firstIpAddr + 12 then {0, 13} else {0}

def skips (addr : Nat) : Finset Nat := if addr / 256 % 256 = 0 ∧ firstIpAddr + 0x10000 ≤ addr then {0, 256} else {0}

def contactTimes (addr : Nat) : Nat :=
  if addr % 256 = 255 ∨ addr / 256 % 256 = 255 then 0 else (carries addr).card * (skips addr).card

theorem contactTimes_le (addr : Nat) : contactTimes addr ≤ 4 := by
  unfold contactTimes carries skips
  split
  · exact Nat.zero_le _
  · split <;> split <;> decide

section
variable {addr ipv4addr : Nat}

theorem mem_sources : ipv4addr ∈ sources addr ↔ firstIpAddr ≤ ipv4addr ∧ adjusted ipv4addr = addr := by
  have above := adjusted_ge ipv4addr
  rw [sources, Finset.mem_filter, Finset.mem_Ico]
  omega

theorem sources_masked (masked : addr % 256 = 255 ∨ addr / 256 % 256 = 255) : sources addr = ∅ := by
  rw [Finset.eq_empty_iff_forall_notMem]
  intro ipv4addr member
  have same := (mem_sources.mp member).2
  have cases_ := adjusted_cases ipv4addr
  omega

theorem adjusted_eq_addr_iff (last : addr % 256 ≠ 255) (third : addr / 256 % 256 ≠ 255) :
    adjusted ipv4addr = addr ↔ ipv4addr = addr ∨ addr % 256 = 12 ∧ ipv4addr + 13 = addr ∨
      addr / 256 % 256 = 0 ∧ ipv4addr + 256 = addr ∨ addr % 256 = 12 ∧ addr / 256 % 256 = 0 ∧ ipv4addr + 269 = addr := by
  rcases adjusted_cases ipv4addr with ⟨low, mid, same⟩ | ⟨low, mid, same⟩ | ⟨low, mid, same⟩ | ⟨low, mid, same⟩ <;>
    rw [same] <;> omega

theorem mem_carries {carry : Nat} : carry ∈ carries addr ↔ carry = 0 ∨ carry = 13 ∧ addr % 256 = 12 ∧ addr ≠ firstIpAddr + 12 := by
  unfold carries
  split <;> simp only [Finset.mem_insert, Finset.mem_singleton] <;> omega

theorem mem_skips {skip : Nat} :
    skip ∈ skips addr ↔ skip = 0 ∨ skip = 256 ∧ addr / 256 % 256 = 0 ∧ firstIpAddr + 0x10000 ≤ addr := by
  unfold skips
  split <;> simp only [Finset.mem_insert, Finset.mem_singleton] <;> omega

theorem sources_eq_image (inRange : firstIpAddr ≤ addr) (last : addr % 256 ≠ 255) (third : addr / 256 % 256 ≠ 255) :
    sources addr = (carries addr ×ˢ skips addr).image fun added => addr - (added.1 + added.2) := by
  ext ipv4addr
  rw [mem_sources, adjusted_eq_addr_iff last third, Finset.mem_image]
  constructor
  · intro ⟨low, way⟩
    refine ⟨((addr - ipv4addr) % 256, (addr - ipv4addr) / 256 * 256), Finset.mk_mem_product ?_ ?_, by omega⟩
    · rw [mem_carries]
      omega
    · rw [mem_skips]
      unfold firstIpAddr at *
      omega
  · intro ⟨(carry, skip), member, same⟩
    obtain ⟨carried, skipped⟩ := Finset.mem_product.mp member
    rw [mem_carries] at carried
    rw [mem_skips] at skipped
    unfold firstIpAddr at *
    omega

theorem sources_card (inRange : firstIpAddr ≤ addr) : (sources addr).card = contactTimes addr := by
  unfold contactTimes
  split
  next masked => rw [sources_masked masked, Finset.card_empty]
  next free =>
    obtain ⟨last, third⟩ := not_or.mp free
    rw [sources_eq_image inRange last third, Finset.card_image_of_injOn, Finset.card_product]
    intro (carry, skip) member (carry', skip') member' same
    rw [Finset.mem_coe, Finset.mem_product, mem_carries, mem_skips] at member member'
    unfold firstIpAddr at *
    have both : carry = carry' ∧ skip = skip' := by
      simp only at same member member'
      omega
    rw [both.1, both.2]

end

/-! Runs. -/

section
variable {events : List Event} {worker : Worker} {addr : Nat}

def contacting (events : List Event) (addr : Nat) : Finset Nat :=
  (((attempts events).filter fun attempt => GetsSocket attempt ∧ adjusted attempt.2 = addr).map Prod.snd).toFinset

theorem attempts_keys (events : List Event) :
    (attempts events).map Prod.snd = List.range' firstIpAddr (attempts events).length := by
  rw [attempts, List.zipIdx_map_snd, List.length_zipIdx]

theorem mem_contacting {ipv4addr : Nat} :
    ipv4addr ∈ contacting events addr ↔ ∃ attempt ∈ attempts events, (GetsSocket attempt ∧ adjusted attempt.2 = addr) ∧ attempt.2 = ipv4addr := by
  simp only [contacting, List.mem_toFinset, List.mem_map, List.mem_filter, decide_eq_true_eq, and_assoc]

theorem count_eq_card (ran : run step events start = some worker) :
    (worker.connects.map Prod.snd).count addr = (contacting events addr).card := by
  have distinct : (((attempts events).filter fun attempt => GetsSocket attempt ∧ adjusted attempt.2 = addr).map Prod.snd).Nodup :=
    List.Nodup.sublist (List.filter_sublist.map _) (by rw [attempts_keys]; exact List.nodup_range')
  rw [contacting, List.toFinset_card_of_nodup distinct, List.length_map, ← List.countP_eq_length_filter,
    (run_accounts ran).connects, List.map_filterMap, List.count_filterMap]
  refine List.countP_congr fun attempt _ => ?_
  rw [beq_iff_eq, address_eq_some, decide_eq_true_eq, eq_comm (a := addr)]

theorem contacting_subset : contacting events addr ⊆ sources addr := by
  intro ipv4addr member
  obtain ⟨attempt, tried, ⟨_, same⟩, rfl⟩ := mem_contacting.mp member
  exact mem_sources.mpr ⟨attempts_ge tried, same⟩

theorem getsSocket_of_socket {attempt : Calls × Nat} (below : adjusted attempt.2 < maxIpAddr)
    (from_ : firstIpAddr ≤ attempt.2) (socket : attempt.1 ≠ .noSocket) : GetsSocket attempt := by
  obtain ⟨calls, ipv4addr⟩ := attempt
  have small := adjusted_ge ipv4addr
  unfold maxIpAddr at below
  have free : ¬Rejected (adjusted ipv4addr) := by
    rw [rejected_iff]
    unfold firstIpAddr at from_
    simp only at below from_
    omega
  cases calls with
  | noSocket => exact absurd rfl socket
  | socket fd connected added =>
    have defined := adjust_defined (show ipv4addr + 269 < 2 ^ 31 by simp only at below; omega)
    simp [GetsSocket, contacted, defined, free]

/-- In every run of `worker` an address of the range is contacted at most `contactTimes` times, which is four times at most, and
exactly so often once `ipv4addr` is past it, unless a call that would have contacted it got no socket. -/
theorem worker_contacts (events : List Event) (worker : Worker) (addr : Nat) (ran : run step events start = some worker)
    (inRange : firstIpAddr ≤ addr ∧ addr < maxIpAddr) :
    (worker.connects.map Prod.snd).count addr ≤ contactTimes addr ∧ contactTimes addr ≤ 4 ∧
      (addr < worker.ipv4addr → (∀ attempt ∈ attempts events, adjusted attempt.2 = addr → attempt.1 ≠ .noSocket) →
        (worker.connects.map Prod.snd).count addr = contactTimes addr) := by
  rw [count_eq_card ran, ← sources_card inRange.1]
  refine ⟨Finset.card_le_card contacting_subset, by rw [sources_card inRange.1]; exact contactTimes_le addr, fun past sockets => ?_⟩
  refine congrArg Finset.card (Finset.Subset.antisymm contacting_subset fun ipv4addr member => ?_)
  obtain ⟨low, same⟩ := mem_sources.mp member
  have key : ipv4addr ∈ (attempts events).map Prod.snd := by
    have above := adjusted_ge ipv4addr
    rw [attempts_keys, List.mem_range'_1, ← (run_accounts ran).ipv4addr]
    omega
  obtain ⟨attempt, tried, rfl⟩ := List.mem_map.mp key
  exact mem_contacting.mpr ⟨attempt, tried, ⟨getsSocket_of_socket (by omega) low (sockets attempt tried same), same⟩, rfl⟩

end

theorem worker_contacts_carried :
    ∃ worker, run step (connectAll 269) start = some worker ∧
      ((worker.connects.map Prod.snd).count 0x0a03010c ≤ contactTimes 0x0a03010c ∧ contactTimes 0x0a03010c ≤ 4 ∧
        (0x0a03010c < worker.ipv4addr →
          (∀ attempt ∈ attempts (connectAll 269), adjusted attempt.2 = 0x0a03010c → attempt.1 ≠ .noSocket) →
          (worker.connects.map Prod.snd).count 0x0a03010c = contactTimes 0x0a03010c)) :=
  ⟨connected 269, run_connectAll (by decide), worker_contacts _ _ 0x0a03010c (run_connectAll (by decide)) (by decide)⟩

end Mbench.DetectAlive
