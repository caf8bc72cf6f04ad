import Mathlib.Algebra.BigOperators.Group.Finset.Piecewise
import Mathlib.Tactic.Abel

/-!
# Ledgers

Balances of accounts in a commutative group, and the two assignments that move an amount from one
account to another. Both new balances are computed before either is stored, so that the account
written last wins where the two are the same.
-/

namespace Labs.Ledger

variable {ι M : Type} [DecidableEq ι] [AddCommGroup M]

/-- Store the payer's new balance, and then the payee's. -/
def move (balance : ι → M) (payer payee : ι) (amount : M) : ι → M :=
  Function.update (Function.update balance payer (balance payer - amount)) payee
    (balance payee + amount)

variable {balance : ι → M} {payer payee i : ι} {amount : M}

@[simp] theorem move_payee : move balance payer payee amount payee = balance payee + amount := by
  simp [move]

@[simp] theorem move_payer (hne : payer ≠ payee) :
    move balance payer payee amount payer = balance payer - amount := by
  simp [move, hne]

theorem move_of_ne (hpayer : i ≠ payer) (hpayee : i ≠ payee) :
    move balance payer payee amount i = balance i := by
  simp [move, hpayer, hpayee]

/-- Moving nothing changes nothing, whoever the parties are. -/
theorem move_zero : move balance payer payee 0 = balance := by
  simp [move]

/-- An account that pays itself is credited and not debited. -/
theorem move_self : move balance payer payer amount =
    Function.update balance payer (balance payer + amount) := by
  simp [move]

/-- Replacing one balance changes the total by the difference. -/
theorem sum_update {accounts : Finset ι} (hi : i ∈ accounts) (b : M) :
    ∑ j ∈ accounts, Function.update balance i b j = ∑ j ∈ accounts, balance j + (b - balance i) := by
  rw [Finset.sum_update_of_mem hi, Finset.sdiff_singleton_eq_erase,
    ← Finset.add_sum_erase _ balance hi]
  abel

/-- Between two different accounts of the ledger, the total is conserved. -/
theorem sum_move {accounts : Finset ι} (hpayer : payer ∈ accounts) (hpayee : payee ∈ accounts)
    (hne : payer ≠ payee) :
    ∑ i ∈ accounts, move balance payer payee amount i = ∑ i ∈ accounts, balance i := by
  have hbalance : Function.update balance payer (balance payer - amount) payee = balance payee :=
    Function.update_of_ne hne.symm _ _
  unfold move
  rw [sum_update hpayee, sum_update hpayer, hbalance]
  abel

/-- When an account pays itself, the total grows by the amount. -/
theorem sum_move_self {accounts : Finset ι} (hpayer : payer ∈ accounts) :
    ∑ i ∈ accounts, move balance payer payer amount i = ∑ i ∈ accounts, balance i + amount := by
  rw [move_self, sum_update hpayer, add_sub_cancel_left]

end Labs.Ledger
