import Mathlib

/-!
# Checks that throw

A function that begins with checks goes on if all of them pass.
-/

namespace SparkRapids.Checks

variable {ε : Type*} {condition : Bool} {error : ε} {a b : Except ε Unit}

/-- `CUDF_EXPECTS` -/
def expects (condition : Bool) (error : ε) : Except ε Unit :=
  if condition then .ok () else .error error

theorem expects_eq_ok_iff : expects condition error = .ok () ↔ condition = true := by
  cases condition with
  | true => exact iff_of_true rfl rfl
  | false => exact iff_of_false (fun h => by cases h) Bool.false_ne_true

theorem expects_true : expects true error = .ok () := rfl

theorem expects_bind_eq_ok_iff {α : Type} {f : Unit → Except ε α} {r : α} :
    (expects condition error >>= f) = .ok r ↔ condition = true ∧ f () = .ok r := by
  cases condition with
  | true => exact (and_iff_right rfl).symm
  | false => exact iff_of_false (fun h => nomatch h) fun h => Bool.false_ne_true h.1

theorem bind_eq_ok_iff : (a >>= fun _ => b) = .ok () ↔ a = .ok () ∧ b = .ok () := by
  cases a with
  | error e => exact iff_of_false (fun h => by cases h) fun h => by cases h.1
  | ok u => exact (and_iff_right rfl).symm

end SparkRapids.Checks
