import Mbench.DetectAlive.DoConnect

/-! The octet adjustments of `do_connect`: what they come to, the range they lead to, and which
arguments they lead to one address. -/

namespace Mbench.DetectAlive
open Library

def adjusted (ipv4addr : Nat) : Nat :=
  let carried := if ipv4addr % 256 = 255 then ipv4addr + 13 else ipv4addr
  if carried / 256 % 256 = 255 then carried + 256 else carried

theorem adjusted_cases (ipv4addr : Nat) :
    (ipv4addr % 256 ≠ 255 ∧ ipv4addr / 256 % 256 ≠ 255 ∧ adjusted ipv4addr = ipv4addr) ∨
    (ipv4addr % 256 ≠ 255 ∧ ipv4addr / 256 % 256 = 255 ∧ adjusted ipv4addr = ipv4addr + 256) ∨
    (ipv4addr % 256 = 255 ∧ (ipv4addr + 13) / 256 % 256 ≠ 255 ∧ adjusted ipv4addr = ipv4addr + 13) ∨
    (ipv4addr % 256 = 255 ∧ (ipv4addr + 13) / 256 % 256 = 255 ∧ adjusted ipv4addr = ipv4addr + 13 + 256) := by
  unfold adjusted
  by_cases low : ipv4addr % 256 = 255
  · by_cases third : (ipv4addr + 13) / 256 % 256 = 255
    · simp [low, third]
    · simp [low, third]
  · by_cases third : ipv4addr / 256 % 256 = 255
    · simp [low, third]
    · simp [low, third]

theorem low_mask (addr : Nat) : addr &&& 0xFF = 0xFF ↔ addr % 256 = 255 := by
  simpa [octet] using land_octet_eq 0 addr 255

theorem third_mask (addr : Nat) : addr &&& 0xFF00 = 0xFF00 ↔ addr / 256 % 256 = 255 := by
  simpa [octet] using land_octet_eq 1 addr 255

theorem rejected_iff (addr : Nat) : Rejected addr ↔ addr / 65536 % 256 = 23 := by
  unfold Rejected
  simpa [octet] using land_octet_eq 2 addr 23

theorem addIf_eq_some {condition : Prop} [Decidable condition] {ipv4addr amount sum : Nat}
    (added : addIf condition ipv4addr amount = some sum) : sum = if condition then ipv4addr + amount else ipv4addr := by
  unfold addIf at added
  rw [addNat_eq] at added
  split at added
  next holds =>
    split at added
    next _ => rw [if_pos holds, Option.some.inj added]
    next _ => cases added
  next fails => rw [if_neg fails, Option.some.inj added]

theorem addIf_defined {condition : Prop} [Decidable condition] {ipv4addr amount : Nat}
    (small : ipv4addr + amount < 2 ^ 31) : ∃ sum, addIf condition ipv4addr amount = some sum ∧ sum ≤ ipv4addr + amount := by
  rw [addIf, addNat_eq, if_pos small]
  split
  · exact ⟨_, rfl, Nat.le_refl _⟩
  · exact ⟨_, rfl, Nat.le_add_right _ _⟩

theorem adjust_eq_some {ipv4addr addr : Nat} (done : adjust ipv4addr = some addr) : addr = adjusted ipv4addr := by
  obtain ⟨carried, first, second⟩ := Option.bind_eq_some_iff.mp done
  have carry := addIf_eq_some first
  rw [if_congr (low_mask ipv4addr) rfl rfl] at carry
  rw [addIf_eq_some second, if_congr (third_mask carried) rfl rfl, adjusted, carry]

theorem adjust_defined {ipv4addr : Nat} (small : ipv4addr + 269 < 2 ^ 31) : adjust ipv4addr = some (adjusted ipv4addr) := by
  have defined : ∃ addr, adjust ipv4addr = some addr := by
    obtain ⟨carried, first, few⟩ : ∃ carried, addIf (ipv4addr &&& 0xFF = 0xFF) ipv4addr 13 = some carried ∧
        carried ≤ ipv4addr + 13 := addIf_defined (by omega)
    obtain ⟨addr, second, _⟩ : ∃ addr, addIf (carried &&& 0xFF00 = 0xFF00) carried 0x100 = some addr ∧
        addr ≤ carried + 0x100 := addIf_defined (by omega)
    exact ⟨addr, by rw [adjust, first, Option.bind_eq_bind, Option.bind_some, second]⟩
  obtain ⟨addr, done⟩ := defined
  rw [done, adjust_eq_some done]

theorem contacted_eq_some {calls : Calls} {ipv4addr : Nat} {contact : Nat × Nat}
    (made : contacted (calls, ipv4addr) = some contact) :
    contact = (ipv4addr, adjusted ipv4addr) ∧ ¬Rejected (adjusted ipv4addr) := by
  unfold contacted at made
  split at made
  next fd connected added addr _ done =>
    have same := adjust_eq_some done
    subst same
    split at made
    next _ => cases made
    next free =>
      cases made
      exact ⟨rfl, free⟩
  next => cases made

/-- The first value of `ipv4addr` from which the adjustments lead out of the rejected octet. -/
def firstPast : Nat := 0x0a17feff

theorem adjusted_ge (ipv4addr : Nat) : ipv4addr ≤ adjusted ipv4addr := by
  have cases_ := adjusted_cases ipv4addr
  omega

theorem adjusted_lt {ipv4addr : Nat} (low : firstIpAddr ≤ ipv4addr) (high : ipv4addr < firstPast)
    (free : ¬Rejected (adjusted ipv4addr)) : ipv4addr < maxIpAddr ∧ adjusted ipv4addr < maxIpAddr := by
  rw [rejected_iff] at free
  unfold firstIpAddr at low
  unfold firstPast at high
  unfold maxIpAddr
  have cases_ := adjusted_cases ipv4addr
  omega

theorem adjusted_free {ipv4addr : Nat} (low : firstIpAddr ≤ ipv4addr) (high : ipv4addr < 0x0a16feff) :
    ¬Rejected (adjusted ipv4addr) := by
  rw [rejected_iff]
  unfold firstIpAddr at low
  have cases_ := adjusted_cases ipv4addr
  omega

/-- The pairs of arguments, the smaller one first, for which the adjustments give one address:
a low octet 255 is carried 13 further and a third octet 255 goes to the next but one. -/
def Clash (first second : Nat) : Prop :=
  first % 256 = 255 ∧ second = first + 13 ∨
  first / 256 % 256 = 255 ∧ first % 256 ≠ 255 ∧ second = first + 256 ∨
  first / 256 % 256 = 255 ∧ first % 256 = 12 ∧ second = first + 243 ∨
  first / 256 % 256 = 254 ∧ first % 256 = 255 ∧ (second = first + 256 ∨ second = first + 269)

theorem adjusted_eq_iff {first second : Nat} (before : first < second) :
    adjusted first = adjusted second ↔ Clash first second := by
  unfold Clash
  rcases adjusted_cases first with ⟨low, third, same⟩ | ⟨low, third, same⟩ | ⟨low, third, same⟩ | ⟨low, third, same⟩ <;>
    rcases adjusted_cases second with
      ⟨low', third', same'⟩ | ⟨low', third', same'⟩ | ⟨low', third', same'⟩ | ⟨low', third', same'⟩ <;>
    rw [same, same'] <;> omega

theorem Clash.lt {first second : Nat} (clash : Clash first second) : first < second := by
  unfold Clash at clash
  omega

end Mbench.DetectAlive
