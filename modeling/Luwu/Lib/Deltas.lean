import Mathlib.Algebra.Group.Basic
import Mathlib.Data.List.Basic

/-!
# Differences and running sums

A list is kept as the differences of its neighbours; adding them up gives it back, also where the arithmetic wraps.
-/

namespace Luwu.Deltas

variable {α : Type*} [AddCommGroup α]

/-- The difference of each value to the one before it, the first to `last` -/
def differences : α → List α → List α
  | _, [] => []
  | last, a :: as => (a - last) :: differences a as

/-- The sums of the values up to each -/
def sums : α → List α → List α
  | _, [] => []
  | last, d :: ds => (last + d) :: sums (last + d) ds

@[simp] theorem length_differences (last : α) (as : List α) : (differences last as).length = as.length := by
  induction as generalizing last with
  | nil => rfl
  | cons a as ih => exact congrArg (· + 1) (ih a)

@[simp] theorem sums_differences (last : α) (as : List α) : sums last (differences last as) = as := by
  induction as generalizing last with
  | nil => rfl
  | cons a as ih =>
    show (last + (a - last)) :: sums (last + (a - last)) (differences a as) = a :: as
    rw [add_sub_cancel, ih]

/-- What holds of the differences of any two values -/
theorem forall_mem_differences {p : α → Prop} {last : α} {as : List α}
    (h : ∀ a ∈ last :: as, ∀ b ∈ last :: as, p (b - a)) : ∀ d ∈ differences last as, p d := by
  induction as generalizing last with
  | nil => exact fun d hd => absurd hd List.not_mem_nil
  | cons a as ih =>
    intro d hd
    rcases List.mem_cons.mp hd with rfl | hrest
    · exact h last List.mem_cons_self a (List.mem_cons_of_mem last List.mem_cons_self)
    · exact ih (fun x hx y hy => h x (List.mem_cons_of_mem last hx) y (List.mem_cons_of_mem last hy)) d hrest

end Luwu.Deltas
