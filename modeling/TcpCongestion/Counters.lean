import Mathlib.Algebra.Group.Int.Defs
import Mathlib.Data.Int.Basic

/-! `ClientCouner` of `echo_client.cc` and `PeerCouner` of `echo_server.cc`: an
`int` that is created with a number of connections, counted down once for each
that is done, and tested against zero. -/
namespace TcpCongestion

/-- The counter both programs define. -/
structure Couner where
  clients : Int32
  deriving DecidableEq, Repr

namespace Couner

/-- `Decrease`. -/
def decrease (counter : Couner) : Couner := ⟨counter.clients - 1⟩

/-- `IsAllDeactive`. -/
def isAllDeactive (counter : Couner) : Bool := decide (counter.clients ≤ 0)

/-- `count` calls of `Decrease`. -/
def decreaseBy (counter : Couner) : Nat → Couner
  | 0 => counter
  | count + 1 => (counter.decreaseBy count).decrease

theorem decreaseBy_decreaseBy (counter : Couner) (first second : Nat) :
    (counter.decreaseBy first).decreaseBy second = counter.decreaseBy (first + second) := by
  induction second with
  | zero => rfl
  | succ second ih => rw [decreaseBy, ih, ← Nat.add_assoc, decreaseBy]

/-- Until the `int` runs out of negative values, each call takes one. -/
theorem decreaseBy_toInt (counter : Couner) (count : Nat)
    (room : (count : Int) ≤ counter.clients.toInt + 2 ^ 31) :
    (counter.decreaseBy count).clients.toInt = counter.clients.toInt - count := by
  induction count with
  | zero => simp [decreaseBy]
  | succ count ih =>
    have before := ih (by omega)
    have below := counter.clients.toInt_lt
    rw [decreaseBy, decrease, Int32.toInt_sub, before, show (1 : Int32).toInt = 1 from rfl,
      Int.bmod_eq_of_le (by omega) (by omega)]
    omega

/-- The counter does not read as done before as many calls as it was created for. -/
theorem isAllDeactive_decreaseBy (counter : Couner) (count : Nat)
    (done : (counter.decreaseBy count).isAllDeactive = true) : counter.clients.toInt ≤ count := by
  by_contra fewer
  have value := counter.decreaseBy_toInt count (by omega)
  rw [isAllDeactive, decide_eq_true_iff, Int32.le_iff_toInt_le, value] at done
  have zero : (0 : Int32).toInt = 0 := rfl
  omega

end Couner

/-- `ClientCouner`. -/
abbrev ClientCouner := Couner

/-- `PeerCouner`. -/
abbrev PeerCouner := Couner

end TcpCongestion
